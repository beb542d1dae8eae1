import CallImpact.Json.Printer
import CallImpact.Json.Reader

/-!
# Documents and records

A document type has a JSON form and a way back.  Most document types are
records: a list of named fields, written as an object in the order of the list.
A record is also read from an array that gives its fields in that order.

Reading a record goes through its *slots*: for each field the tree that the
document gives for it, if any.  Each field then says whether it has to be there,
has a default, or may be null.  The slots are read one after another (`withSlot`), and
when none is left over (`noMore`) the record is there.
-/

namespace CallImpact

/-- Types whose values are stored as JSON documents. -/
class Document (α : Type) where
  toJson : α → Json
  ofJson? : Json → Option α

namespace Document

def read? {α : Type} [Document α] (text : String) : Option α :=
  (Json.ofString? text).bind ofJson?

def write {α : Type} [Document α] (value : α) : String :=
  (toJson value).render

instance : Document String where
  toJson := .string
  ofJson?
    | .string text => some text
    | _ => none

instance : Document Bool where
  toJson := .bool
  ofJson?
    | .bool value => some value
    | _ => none

/-- The natural number that a tree holds, if it is less than the bound. -/
def natBelow? (bound : Nat) : Json → Option Nat
  | .int value => if 0 ≤ value ∧ value < bound then some value.toNat else none
  | _ => none

instance : Document UInt32 where
  toJson n := .int n.toNat
  ofJson? j := (natBelow? UInt32.size j).map UInt32.ofNat

instance : Document UInt64 where
  toJson n := .int n.toNat
  ofJson? j := (natBelow? UInt64.size j).map UInt64.ofNat

/-- The values of a list of trees, if each of them has one. -/
def ofItems? {α : Type} (read : Json → Option α) : List Json → Option (List α)
  | [] => some []
  | x :: xs => do
    let value ← read x
    let values ← ofItems? read xs
    pure (value :: values)

def ofArray? {α : Type} (read : Json → Option α) : Json → Option (List α)
  | .array items => ofItems? read items
  | _ => none

instance {α : Type} [Document α] : Document (List α) where
  toJson values := .array (values.map toJson)
  ofJson? := ofArray? ofJson?

end Document

namespace Record

def members? : Json → Option (List (String × Json))
  | .object members => some members
  | _ => none

/-- What an object gives for each of the named fields.  A name may occur once;
members with other names are ignored. -/
def slotsOfMembers? (names : List String) (members : List (String × Json)) :
    Option (List (Option Json)) :=
  names.mapM fun name =>
    match members.filter (fun m => m.1 == name) with
    | [] => some none
    | [m] => some (some m.2)
    | _ => none

/-- What an array gives for each of the named fields: the items in order, then
nothing.  There may not be more items than fields. -/
def slotsOfItems? (names : List String) (items : List Json) : Option (List (Option Json)) :=
  if items.length ≤ names.length then
    some (items.map some ++ List.replicate (names.length - items.length) none)
  else none

/-- What a tree gives for each of the named fields of a record. -/
def slots? (names : List String) : Json → Option (List (Option Json))
  | .object members => slotsOfMembers? names members
  | .array items => slotsOfItems? names items
  | _ => none

def required {α : Type} (read : Json → Option α) : Option Json → Option α
  | some j => read j
  | none => none

def defaulted {α : Type} (default : α) (read : Json → Option α) : Option Json → Option α
  | some j => read j
  | none => some default

/-- A field that may be null or absent. -/
def optional {α : Type} (read : Json → Option α) : Option Json → Option (Option α)
  | some .null => some none
  | some j => (read j).map some
  | none => some none

/-- Reads the first slot, and with its value the other ones. -/
def withSlot {α β : Type} (read : Option Json → Option α)
    (next : α → List (Option Json) → Option β) : List (Option Json) → Option β
  | [] => none
  | slot :: slots => (read slot).bind (next · slots)

/-- The value of a record whose slots were all read. -/
def noMore {α : Type} (value : α) : List (Option Json) → Option α
  | [] => some value
  | _ :: _ => none

@[simp] theorem withSlot_nil {α β : Type} (read : Option Json → Option α)
    (next : α → List (Option Json) → Option β) : withSlot read next [] = none := rfl

@[simp] theorem withSlot_cons {α β : Type} (read : Option Json → Option α)
    (next : α → List (Option Json) → Option β) (slot : Option Json)
    (slots : List (Option Json)) :
    withSlot read next (slot :: slots) = (read slot).bind (next · slots) := rfl

@[simp] theorem noMore_nil {α : Type} (value : α) : noMore value [] = some value := rfl

@[simp] theorem noMore_cons {α : Type} (value : α) (slot : Option Json)
    (slots : List (Option Json)) : noMore value (slot :: slots) = none := rfl

end Record
end CallImpact
