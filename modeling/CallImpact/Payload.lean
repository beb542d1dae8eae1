import CallImpact.Json

/-!
# Payloads

A payload is a JSON tree that the library stores and returns without looking
into it.  It is kept in canonical form: every place has a value and the keys of
every object ascend, so two payloads are equal exactly when their trees are.
-/

namespace CallImpact

/-- Data attached to a declaration, opaque to everything but its owner. -/
structure Payload where
  tree : Json
  canonical : tree.isCanonical = true
deriving DecidableEq

namespace Payload

def empty : Payload := ⟨.null, rfl⟩

instance : Inhabited Payload := ⟨empty⟩

def isEmpty (p : Payload) : Bool :=
  decide (p.tree = .null)

/-- The payload of a tree, which must have a value at every place. -/
def ofJson? (j : Json) : Option Payload :=
  if h : j.isReadable = true ∧ j.canonical.isCanonical = true then
    some ⟨j.canonical, h.2⟩
  else none

end Payload
end CallImpact
