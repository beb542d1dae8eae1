/-!
# Decimal text of natural numbers

Numbers are written in base ten without leading zeros.  Reading accepts any
non-empty run of ASCII digits.
-/

namespace CallImpact
namespace Text

/-- The decimal digits of `n`, most significant first. -/
def digits (n : Nat) : List Char :=
  Nat.toDigits 10 n

def decimal (n : Nat) : String :=
  String.ofList (digits n)

/-- The number written by a run of ASCII digits, of which there is at least one. -/
def ofDigits? (text : List Char) : Option Nat :=
  if text ≠ [] ∧ text.all Char.isDigit then some (Nat.ofDigitChars 10 text 0) else none

/-- Written digits are ASCII digits, and there is at least one. -/
theorem digits_spec (n : Nat) :
    digits n ≠ [] ∧ (digits n).all Char.isDigit = true := by
  refine ⟨Nat.toDigits_ne_nil, ?_⟩
  rw [List.all_eq_true]
  intro c hc
  exact Nat.isDigit_of_mem_toDigits (by decide) (by decide) hc

def hexValue? (c : Char) : Option Nat :=
  if '0' ≤ c ∧ c ≤ '9' then some (c.toNat - '0'.toNat)
  else if 'a' ≤ c ∧ c ≤ 'f' then some (c.toNat - 'a'.toNat + 10)
  else if 'A' ≤ c ∧ c ≤ 'F' then some (c.toNat - 'A'.toNat + 10)
  else none

/-- The number written by digits of the given base, read with `value?`. -/
def ofDigitsBase? (base : Nat) (value? : Char → Option Nat) (text : List Char) : Option Nat :=
  text.foldlM (fun total c => (value? c).map (base * total + ·)) 0

end Text
end CallImpact
