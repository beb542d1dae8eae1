import CallImpact.Naming
import CallImpact.Relation

/-!
# Neighbourhoods

A function with its direct callees and callers.  The digest of a neighbourhood
keeps the neighbours as signatures only, which bounds its size.
-/

namespace CallImpact

/-- A function with its direct neighbours. -/
structure Neighbourhood where
  function : LocatedFunction
  callees : List LocatedFunction := []
  callers : List LocatedFunction := []
deriving DecidableEq

/-- A function with the signatures of its direct neighbours. -/
structure Digest where
  function : LocatedFunction
  callees : List Signature
  callers : List Signature
deriving DecidableEq

namespace Neighbourhood

def isIsolated (n : Neighbourhood) : Bool :=
  n.callees.isEmpty && n.callers.isEmpty

/-- The neighbourhood with every neighbour replaced by its signature. -/
def digest (n : Neighbourhood) : Digest :=
  ⟨n.function, n.callees.map LocatedFunction.signature,
    n.callers.map LocatedFunction.signature⟩

end Neighbourhood

namespace Digest

def neighbours (d : Digest) : Relation → List Signature
  | .calls => d.callees
  | .callers => d.callers

end Digest
end CallImpact
