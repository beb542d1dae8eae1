import CallImpact.Json.Token
import CallImpact.Text.Utf8

/-!
# Reading JSON texts

Tokens are put together to a tree with a stack of the containers that are open.
Every container closes, so the depth of a text is not limited, but a container
inside `maxDepth` others has no value.
-/

namespace CallImpact
namespace Json

/-- The number of containers that may nest. -/
def maxDepth : Nat := 127

/-- A container that is not closed yet; items and members are kept with the last
one first. -/
inductive Open where
  | array (items : List Json)
  /-- An object that waits for its next key; it is legible if all keys are. -/
  | object (members : List (String × Json)) (legible : Bool)
  /-- An object that waits for the value of a key. -/
  | member (members : List (String × Json)) (legible : Bool) (key : String)

/-- What has to come next. -/
inductive Expected where
  | value
  /-- The first item of an array, or its end. -/
  | firstItem
  /-- The first key of an object, or its end. -/
  | firstKey
  | key
  | colon
  /-- A comma, or the end of the container. -/
  | separator
  /-- Nothing: the tree is complete. -/
  | done (value : Json)

/-- A text read up to some token: the open containers, innermost first, their
number, and what comes next. -/
structure Assembly where
  stack : List Open := []
  depth : Nat := 0
  expected : Expected := .value

namespace Assembly

/-- Puts a finished value where one was expected. -/
def put (stack : List Open) (depth : Nat) (value : Json) : Option Assembly :=
  match stack with
  | [] => some ⟨[], depth, .done value⟩
  | .array items :: outer => some ⟨.array (value :: items) :: outer, depth, .separator⟩
  | .member members legible key :: outer =>
    some ⟨.object ((key, value) :: members) legible :: outer, depth, .separator⟩
  | .object _ _ :: _ => none

def openArray (a : Assembly) : Assembly :=
  ⟨.array [] :: a.stack, a.depth + 1, .firstItem⟩

def openObject (a : Assembly) : Assembly :=
  ⟨.object [] true :: a.stack, a.depth + 1, .firstKey⟩

/-- The value of a container closed at the given depth. -/
def closed (depth : Nat) (value : Json) : Json :=
  if depth ≤ maxDepth then value else .unreadable

/-- Closes the innermost container, which is an array. -/
def closeArray (a : Assembly) : Option Assembly :=
  match a.stack with
  | .array items :: outer =>
    put outer (a.depth - 1) (closed a.depth (.array items.reverse))
  | _ => none

def closeObject (a : Assembly) : Option Assembly :=
  match a.stack with
  | .object members legible :: outer =>
    put outer (a.depth - 1)
      (closed a.depth (if legible then .object members.reverse else .unreadable))
  | _ => none

def beginValue (a : Assembly) : Token → Option Assembly
  | .openBrace => some a.openObject
  | .openBracket => some a.openArray
  | .text (some value) => put a.stack a.depth (.string value)
  | .text none => put a.stack a.depth .unreadable
  | .leaf value => put a.stack a.depth value
  | _ => none

def readKey (a : Assembly) (key : Option String) : Option Assembly :=
  match a.stack with
  | .object members legible :: outer =>
    some ⟨.member members (legible && key.isSome) (key.getD "") :: outer, a.depth, .colon⟩
  | _ => none

def step (a : Assembly) (token : Token) : Option Assembly :=
  match a.expected, token with
  | .value, token => a.beginValue token
  | .firstItem, .closeBracket => a.closeArray
  | .firstItem, token => a.beginValue token
  | .firstKey, .closeBrace => a.closeObject
  | .firstKey, .text key => a.readKey key
  | .key, .text key => a.readKey key
  | .colon, .colon => some { a with expected := .value }
  | .separator, .closeBracket => a.closeArray
  | .separator, .closeBrace => a.closeObject
  | .separator, .comma =>
    match a.stack with
    | .array _ :: _ => some { a with expected := .value }
    | .object _ _ :: _ => some { a with expected := .key }
    | _ => none
  | _, _ => none

def finish (a : Assembly) : Option Json :=
  match a.expected with
  | .done value => some value
  | _ => none

end Assembly

def ofTokens? (tokens : List Token) : Option Json :=
  (tokens.foldlM Assembly.step {}).bind Assembly.finish

def ofSymbols? (symbols : List (Option Char)) : Option Json :=
  (tokens? symbols).bind ofTokens?

def ofString? (text : String) : Option Json :=
  ofSymbols? (text.toList.map some)

/-- The tree of a JSON text given as bytes; bytes of no character may stand in
strings that nobody looks at. -/
def ofBytes? (bytes : List UInt8) : Option Json :=
  ofSymbols? (Utf8.symbols bytes)

end Json
end CallImpact
