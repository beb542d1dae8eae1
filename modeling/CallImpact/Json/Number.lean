import CallImpact.Json
import CallImpact.Text.Decimal

/-!
# JSON numbers

A number is an optional minus sign, an integer part without leading zeros, an
optional fraction and an optional exponent.  Without the last two it is an
integer, if a signed or unsigned word of 64 bits holds it and it is not `-0`;
otherwise it is a double.

A double is computed from the number in two roundings: the leading digits that a
word of 64 bits holds are taken as a double, which is then multiplied with or
divided by a power of ten.  A product that is infinite has no value.
-/

namespace CallImpact
namespace Json

/-- The digits at the front of a text, and what follows them. -/
def splitDigits (text : List Char) : List Char × List Char :=
  (text.takeWhile Char.isDigit, text.dropWhile Char.isDigit)

/-- Appends digits to a number as long as a word of 64 bits holds the result;
gives the digits that are left. -/
def absorb (word : Nat) : List Char → Nat × List Char
  | [] => (word, [])
  | c :: rest =>
    let longer := Nat.ofDigitChars 10 [c] word
    if longer < 1 <<< 64 then absorb longer rest else (word, c :: rest)

def powerOfTen (n : Nat) : Float :=
  Float.ofScientific 1 false n

/-- A word of 64 bits times a power of ten as a double: none if it is infinite.
A negative power beyond the doubles is divided by in two steps, and nothing is
left of a word after a third. -/
def scaled? (word : Nat) (exponent : Int) : Option Float :=
  let value := Float.ofNat word
  if 0 ≤ exponent then
    if word = 0 then some value
    else if 308 < exponent then none
    else
      let product := value * powerOfTen exponent.toNat
      if product.isInf then none else some product
  else if -308 ≤ exponent then some (value / powerOfTen (-exponent).toNat)
  else if -616 ≤ exponent then
    some (value / powerOfTen 308 / powerOfTen (-exponent - 308).toNat)
  else some 0

/-- The double with the given sign, as long as it is finite. -/
def ofScaled (negative : Bool) (word : Nat) (exponent : Int) : Json :=
  match scaled? word exponent with
  | some value => .real (if negative then -value else value)
  | none => .unreadable

/-- The value of an integer: exact if a signed or unsigned word of 64 bits holds
it and it is not a negative zero, otherwise a double. -/
def ofWhole (negative : Bool) (whole : List Char) : Json :=
  let magnitude := Nat.ofDigitChars 10 whole 0
  let (word, dropped) := absorb 0 whole
  let rounded := ofScaled negative word dropped.length
  if negative then
    if 0 < magnitude ∧ magnitude ≤ 1 <<< 63 then .int (-magnitude) else rounded
  else if magnitude < 1 <<< 64 then .int magnitude
  else rounded

/-- The value of a number with a fraction or an exponent: the digits of the
fraction are appended to those of the integer part, and digits that are left
over count for the magnitude only in the integer part. -/
def ofParts (negative : Bool) (whole fraction : List Char) (exponent : Int) : Json :=
  let (word, dropped) := absorb 0 whole
  let (word, ignored) := absorb word fraction
  ofScaled negative word
    (exponent + dropped.length - (fraction.length - ignored.length : Nat))

/-- The digits of a fraction, if there is one, and what follows it. -/
def fraction? : List Char → Option (List Char × List Char)
  | '.' :: rest =>
    let (digits, rest) := splitDigits rest
    if digits = [] then none else some (digits, rest)
  | rest => some ([], rest)

/-- The value of a complete exponent: a mark, an optional sign and digits. -/
def exponent? : List Char → Option Int
  | [] => some 0
  | mark :: rest =>
    if mark = 'e' ∨ mark = 'E' then
      match rest with
      | '-' :: digits => (Text.ofDigits? digits).map fun n => -(n : Int)
      | '+' :: digits => (Text.ofDigits? digits).map Int.ofNat
      | digits => (Text.ofDigits? digits).map Int.ofNat
    else none

def unsigned? (negative : Bool) (text : List Char) : Option Json := do
  let (whole, rest) := splitDigits text
  if whole = [] ∨ 1 < whole.length ∧ whole.head? = some '0' then none
  else if rest = [] then some (ofWhole negative whole)
  else
    let (fraction, rest) ← fraction? rest
    some (ofParts negative whole fraction (← exponent? rest))

def number? : List Char → Option Json
  | '-' :: text => unsigned? true text
  | text => unsigned? false text

end Json
end CallImpact
