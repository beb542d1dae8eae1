import CallImpact.Decimal

/-!
# The shortest decimal of a double

The decimals that round to a finite double fill an interval around it: it ends
halfway to each of the two neighbouring doubles, and holds its ends if the
significand is even.  Of the decimals in it `Decimal.shortest` gives one with the
fewest digits, and of those the nearest; of two equally near ones, the even one.
-/

namespace CallImpact

/-- The magnitude of a finite double: `significand · 2 ^ exponent`. -/
structure Magnitude where
  significand : Nat
  exponent : Int
  /-- The double below is only half as far away as the one above. -/
  narrowBelow : Bool

namespace Magnitude

/-- The magnitude that the word of a finite double describes. -/
def ofWord (word : Nat) : Magnitude :=
  let fraction := word % 1 <<< 52
  let field := word >>> 52 % 1 <<< 11
  if field = 0 then ⟨fraction, -1074, false⟩
  else ⟨1 <<< 52 + fraction, Int.ofNat field - 1075, decide (fraction = 0 ∧ 1 < field)⟩

/-- The lower end of the interval that rounds to the magnitude, in quarters of a
unit in the last place. -/
def low (x : Magnitude) : Nat :=
  if x.narrowBelow then 4 * x.significand - 1 else 4 * x.significand - 2

/-- The upper end of the interval, in the same quarters. -/
def high (x : Magnitude) : Nat :=
  4 * x.significand + 2

/-- The least power of ten above the magnitude, which is not zero: the number of
digits of its product with `10 ^ 400`, less 400. -/
def order (x : Magnitude) : Int :=
  (Text.digits
    ((x.significand * Nat.pow 10 400) <<< x.exponent.toNat >>> (-x.exponent).toNat)).length - 400

/-- The multiple of `10 ^ grid` that rounds to the magnitude, if there is one: of
the two next to it, the one in the interval, and the nearer one if both are. -/
def onGrid? (x : Magnitude) (grid : Int) : Option Nat :=
  let step := Nat.pow 10 grid.toNat <<< (2 - x.exponent).toNat
  let quarter := Nat.pow 10 (-grid).toNat <<< (x.exponent - 2).toNat
  let isInside (n : Nat) : Bool :=
    if x.significand % 2 = 0 then
      decide (x.low * quarter ≤ n * step ∧ n * step ≤ x.high * quarter)
    else decide (x.low * quarter < n * step ∧ n * step < x.high * quarter)
  let below := 4 * x.significand * quarter / step
  let excess := 4 * x.significand * quarter % step
  match isInside below, isInside (below + 1) with
  | true, true =>
    if 2 * excess < step ∨ 2 * excess = step ∧ below % 2 = 0 then some below
    else some (below + 1)
  | true, false => some below
  | false, true => some (below + 1)
  | false, false => none

end Magnitude

namespace Decimal

/-- The decimal of a finite double with the fewest digits.  At most seventeen are
needed; the search goes through the powers of ten below the leading digit. -/
def shortest (value : Float) : Decimal :=
  let word := value.toBits.toNat
  let x := Magnitude.ofWord word
  let negative := decide (1 <<< 63 ≤ word)
  if x.significand = 0 then ⟨negative, 0, 0⟩
  else
    let grids := (List.range 17).map fun n : Nat => x.order - 1 - Int.ofNat n
    match grids.findSome? fun grid => (x.onGrid? grid).map (·, grid) with
    | some (multiple, grid) =>
      let digits := Text.digits multiple
      let zeros := (digits.reverse.takeWhile (· == '0')).length
      ⟨negative, multiple / Nat.pow 10 zeros, grid + zeros⟩
    | none => ⟨negative, x.significand <<< x.exponent.toNat * Nat.pow 5 (-x.exponent).toNat,
        min x.exponent 0⟩

end Decimal
end CallImpact
