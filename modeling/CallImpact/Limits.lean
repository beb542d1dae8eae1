import CallImpact.Error

/-!
# Limits of correlation

Short names match too many unrelated occurrences, and names that occur very
often fan out to edges that nobody looks at.  Limits leave such functions
unconnected.
-/

namespace CallImpact

/-- Which functions are left unconnected. -/
structure Limits where
  /-- Functions with a shorter name are. -/
  minNameLength : UInt64 := 0
  /-- Functions whose name occurs more often are. -/
  maxReferences : Option UInt64 := none
deriving DecidableEq, Inhabited

namespace Limits

def large : Limits :=
  ⟨4, some 1024⟩

/-- Limits that allow no reference at all are refused. -/
def checked (l : Limits) : Except ImpactError Limits :=
  if l.maxReferences = some 0 then .error (.invalidLimits .zeroReferences) else .ok l

def tooShort (l : Limits) (length : Nat) : Bool :=
  decide (length < l.minNameLength.toNat)

def tooMany (l : Limits) (occurrences : Nat) : Bool :=
  l.maxReferences.any fun limit => decide (limit.toNat < occurrences)

end Limits
end CallImpact
