/-!
# Relations between functions

The two directions of a reference, and how far a query follows one of them.
-/

namespace CallImpact

/-- A direction in which references are followed. -/
inductive Relation where
  /-- From a function to those it refers to. -/
  | calls
  /-- From a function to those that refer to it. -/
  | callers
deriving DecidableEq

namespace Relation

def name : Relation → String
  | calls => "calls"
  | callers => "reverse_calls"

def ofName? : String → Option Relation
  | "calls" => some calls
  | "reverse_calls" => some callers
  | _ => none

theorem ofName?_name (r : Relation) : ofName? r.name = some r := by
  cases r <;> rfl

end Relation

/-- How far a query goes. -/
inductive Reach where
  | oneHop
  /-- Along chains of at most that many hops. -/
  | chains (hops : UInt64)
deriving DecidableEq

end CallImpact
