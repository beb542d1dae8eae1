/-!
# JSON trees

The tree that a JSON text stands for.  Objects keep their members in the order
written, repeated keys included; whoever reads an object decides what a
repeated key means.

Some texts are well formed and yet stand for nothing: a string with half of a
surrogate pair or with bytes of no character, a number beyond the largest
double, a container nested too deep.  Such a place is a leaf `unreadable`.
Readers that skip the place do not mind it; readers that look at it fail.
-/

namespace CallImpact

/-- The tree of a JSON text. -/
inductive Json where
  | null
  | bool (value : Bool)
  | int (value : Int)
  /-- A finite double: a number with a fraction or an exponent, or an integer
  that no word of 64 bits holds. -/
  | real (value : Float)
  | string (text : String)
  | array (items : List Json)
  | object (members : List (String × Json))
  /-- Well formed in the text, and without a value. -/
  | unreadable

namespace Json

instance : Inhabited Json := ⟨.null⟩

mutual

def decEq : (a b : Json) → Decidable (a = b)
  | .null, .null => .isTrue rfl
  | .bool x, .bool y => decidable_of_iff (x = y) (by simp)
  | .int x, .int y => decidable_of_iff (x = y) (by simp)
  | .real x, .real y => decidable_of_iff (x = y) (by simp)
  | .string x, .string y => decidable_of_iff (x = y) (by simp)
  | .array xs, .array ys =>
    match decEqItems xs ys with
    | .isTrue h => .isTrue (by rw [h])
    | .isFalse h => .isFalse (by simpa using h)
  | .object ms, .object ns =>
    match decEqMembers ms ns with
    | .isTrue h => .isTrue (by rw [h])
    | .isFalse h => .isFalse (by simpa using h)
  | .unreadable, .unreadable => .isTrue rfl
  | .null, .bool _ | .null, .int _ | .null, .real _ | .null, .string _ | .null, .array _
  | .null, .object _ | .null, .unreadable => .isFalse nofun
  | .bool _, .null | .bool _, .int _ | .bool _, .real _ | .bool _, .string _
  | .bool _, .array _ | .bool _, .object _ | .bool _, .unreadable => .isFalse nofun
  | .int _, .null | .int _, .bool _ | .int _, .real _ | .int _, .string _
  | .int _, .array _ | .int _, .object _ | .int _, .unreadable => .isFalse nofun
  | .real _, .null | .real _, .bool _ | .real _, .int _ | .real _, .string _
  | .real _, .array _ | .real _, .object _ | .real _, .unreadable => .isFalse nofun
  | .string _, .null | .string _, .bool _ | .string _, .int _ | .string _, .real _
  | .string _, .array _ | .string _, .object _ | .string _, .unreadable => .isFalse nofun
  | .array _, .null | .array _, .bool _ | .array _, .int _ | .array _, .real _
  | .array _, .string _ | .array _, .object _ | .array _, .unreadable => .isFalse nofun
  | .object _, .null | .object _, .bool _ | .object _, .int _ | .object _, .real _
  | .object _, .string _ | .object _, .array _ | .object _, .unreadable => .isFalse nofun
  | .unreadable, .null | .unreadable, .bool _ | .unreadable, .int _ | .unreadable, .real _
  | .unreadable, .string _ | .unreadable, .array _ | .unreadable, .object _ => .isFalse nofun

def decEqItems : (xs ys : List Json) → Decidable (xs = ys)
  | [], [] => .isTrue rfl
  | x :: xs, y :: ys =>
    match decEq x y, decEqItems xs ys with
    | .isTrue h, .isTrue hs => .isTrue (by rw [h, hs])
    | .isFalse h, _ => .isFalse (by simp [h])
    | _, .isFalse h => .isFalse (by simp [h])
  | [], _ :: _ | _ :: _, [] => .isFalse nofun

def decEqMembers : (ms ns : List (String × Json)) → Decidable (ms = ns)
  | [], [] => .isTrue rfl
  | (k, x) :: ms, (l, y) :: ns =>
    match decEq x y, decEqMembers ms ns with
    | .isTrue h, .isTrue hs => decidable_of_iff (k = l) (by simp [h, hs])
    | .isFalse h, _ => .isFalse (by simp [h])
    | _, .isFalse h => .isFalse (by simp [h])
  | [], _ :: _ | _ :: _, [] => .isFalse nofun

end

instance : DecidableEq Json := decEq

mutual

/-- The tree has a value at every place. -/
def isReadable : Json → Bool
  | .array xs => areReadable xs
  | .object ms => areReadableMembers ms
  | .unreadable => false
  | _ => true

def areReadable : List Json → Bool
  | [] => true
  | x :: xs => x.isReadable && areReadable xs

def areReadableMembers : List (String × Json) → Bool
  | [] => true
  | (_, x) :: ms => x.isReadable && areReadableMembers ms

end

mutual

/-- How deep the containers of the tree nest. -/
def depth : Json → Nat
  | .array xs => depthOfItems xs + 1
  | .object ms => depthOfMembers ms + 1
  | _ => 0

def depthOfItems : List Json → Nat
  | [] => 0
  | x :: xs => max x.depth (depthOfItems xs)

def depthOfMembers : List (String × Json) → Nat
  | [] => 0
  | (_, x) :: ms => max x.depth (depthOfMembers ms)

end

/-- Adds a member to members sorted by key; the value of a key that is there
already is replaced. -/
def insertSorted (key : String) (value : Json) : List (String × Json) → List (String × Json)
  | [] => [(key, value)]
  | (k, v) :: rest =>
    if key < k then (key, value) :: (k, v) :: rest
    else if key = k then (key, value) :: rest
    else (k, v) :: insertSorted key value rest

mutual

/-- The same tree with the keys of every object sorted by code point; of the
values of a repeated key the last one stays. -/
def canonical : Json → Json
  | .array xs => .array (canonicalItems xs)
  | .object ms => .object (canonicalMembers ms [])
  | j => j

def canonicalItems : List Json → List Json
  | [] => []
  | x :: xs => x.canonical :: canonicalItems xs

/-- The members in canonical form, added to sorted members one after the other. -/
def canonicalMembers : List (String × Json) → List (String × Json) → List (String × Json)
  | [], sorted => sorted
  | (k, x) :: ms, sorted => canonicalMembers ms (insertSorted k x.canonical sorted)

end

/-- The keys are in strictly ascending order. -/
def keysAscend : List (String × Json) → Bool
  | [] => true
  | [_] => true
  | (k, _) :: (l, y) :: rest => decide (k < l) && keysAscend ((l, y) :: rest)

mutual

/-- The tree is readable, a word of 64 bits holds each integer, each double is
finite, and the keys of every object are in strictly ascending order, so that equal
trees mean equal data. -/
def isCanonical : Json → Bool
  | .int value => decide (-2 ^ 63 ≤ value ∧ value < 2 ^ 64)
  | .real value => value.isFinite
  | .array xs => areCanonical xs
  | .object ms => keysAscend ms && areCanonicalMembers ms
  | .unreadable => false
  | _ => true

def areCanonical : List Json → Bool
  | [] => true
  | x :: xs => x.isCanonical && areCanonical xs

def areCanonicalMembers : List (String × Json) → Bool
  | [] => true
  | (_, x) :: ms => x.isCanonical && areCanonicalMembers ms

end

end Json
end CallImpact
