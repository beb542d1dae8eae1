import CallImpact.Text.Decimal

/-!
# Decimals

A decimal is an integer times a power of ten.  Doubles reach up to a bound that
decides which decimals round to infinity.
-/

namespace CallImpact

/-- The number `± significand · 10 ^ exponent`. -/
structure Decimal where
  negative : Bool
  significand : Nat
  exponent : Int
deriving DecidableEq

namespace Decimal

/-- The least number that rounds to infinity as a double: half a unit in the
last place above the largest finite one. -/
def infinityBound : Nat :=
  1 <<< 1024 - 1 <<< 970

/-- The magnitude rounds to infinity as a double.  The powers of ten are only
formed when the order of magnitude does not decide. -/
def overflows (d : Decimal) : Bool :=
  let order := d.exponent + (Text.digits d.significand).length
  if d.significand = 0 ∨ order ≤ 308 then false
  else if 310 < order then true
  else if 0 ≤ d.exponent then
    decide (infinityBound ≤ d.significand * Nat.pow 10 d.exponent.toNat)
  else decide (infinityBound * Nat.pow 10 (-d.exponent).toNat ≤ d.significand)

end Decimal
end CallImpact
