import CallImpact.Decimal
import CallImpact.Toml

/-!
# TOML scalars other than strings

Numbers, constants, dates and times are words: nothing in them is blank but the
space that may stand between a date and a time.
-/

namespace CallImpact
namespace Toml

def isWordChar (c : Char) : Bool :=
  c.isAlphanum || c == '+' || c == '-' || c == '_' || c == '.' || c == ':'

/-- The digits of a run in which single underscores may stand between digits;
`after` says that a digit came before. -/
def digitsFrom? (isDigit : Char → Bool) (after : Bool) : List Char → Option (List Char)
  | [] => if after then some [] else none
  | c :: rest =>
    if isDigit c then (digitsFrom? isDigit true rest).map (c :: ·)
    else if c = '_' ∧ after then digitsFrom? isDigit false rest
    else none

/-- The digits of a run that is not empty. -/
def underscored? (isDigit : Char → Bool) (text : List Char) : Option (List Char) :=
  digitsFrom? isDigit false text

/-- A sign in front of a text, and the text without it. -/
def splitSign : List Char → Bool × List Char
  | '-' :: rest => (true, rest)
  | '+' :: rest => (false, rest)
  | rest => (false, rest)

/-- The digits of a decimal integer without its sign; it starts with a zero only
if it is one. -/
def whole? (text : List Char) : Option (List Char) :=
  if text.head? = some '0' ∧ text ≠ ['0'] then none
  else underscored? Char.isDigit text

/-- An integer of 64 bits with a sign. -/
def signedWord? (negative : Bool) (magnitude : Nat) : Option Toml :=
  if negative then if magnitude ≤ 1 <<< 63 then some (.integer (-magnitude)) else none
  else if magnitude < 1 <<< 63 then some (.integer magnitude) else none

def isDigitOf (base : Nat) (c : Char) : Bool :=
  (Text.hexValue? c).any (· < base)

/-- A number written in base sixteen, eight or two. -/
def inBase? (base : Nat) (text : List Char) : Option Toml := do
  let digits ← underscored? (isDigitOf base) text
  signedWord? false (← Text.ofDigitsBase? base Text.hexValue? digits)

def integer? : List Char → Option Toml
  | '0' :: 'x' :: text => inBase? 16 text
  | '0' :: 'o' :: text => inBase? 8 text
  | '0' :: 'b' :: text => inBase? 2 text
  | text => do
    let (negative, text) := splitSign text
    signedWord? negative (Nat.ofDigitChars 10 (← whole? text) 0)

/-- The value of an exponent, in which the digits may start with zeros. -/
def exponent? (text : List Char) : Option Int := do
  let (negative, text) := splitSign text
  let magnitude : Int := Nat.ofDigitChars 10 (← underscored? Char.isDigit text) 0
  pure (if negative then -magnitude else magnitude)

/-- Splits a text at the first character of a kind, which is dropped. -/
def splitAt? (isMark : Char → Bool) (text : List Char) : List Char × Option (List Char) :=
  match text.dropWhile (fun c => !isMark c) with
  | [] => (text, none)
  | _ :: rest => (text.takeWhile fun c => !isMark c, some rest)

/-- The number of a float with a fraction, an exponent or both. -/
def decimal? (text : List Char) : Option Decimal := do
  let (negative, text) := splitSign text
  let (mantissa, exponentText) := splitAt? (fun c => c == 'e' || c == 'E') text
  let (wholeText, fractionText) := splitAt? (fun c => c == '.') mantissa
  let whole ← whole? wholeText
  match fractionText, exponentText with
  | none, none => none
  | _, _ =>
    let fraction ← match fractionText with
      | some text => underscored? Char.isDigit text
      | none => some []
    let exponent ← match exponentText with
      | some text => exponent? text
      | none => some 0
    pure ⟨negative, Nat.ofDigitChars 10 (whole ++ fraction) 0, exponent - fraction.length⟩

/-- A float.  A positive number that rounds to infinity is refused. -/
def float? (text : List Char) : Option Toml :=
  let unsigned := (splitSign text).2
  if unsigned = ['i', 'n', 'f'] ∨ unsigned = ['n', 'a', 'n'] then some .float
  else
    match decimal? text with
    | some d => if !d.negative && d.overflows then none else some .float
    | none => none

/-- The number written by exactly `count` digits at the front of a text, and what
follows them. -/
def fixedDigits? (count : Nat) (text : List Char) : Option (Nat × List Char) :=
  let digits := text.take count
  if digits.length = count ∧ digits.all Char.isDigit then
    some (Nat.ofDigitChars 10 digits 0, text.drop count)
  else none

def daysOf (year month : Nat) : Nat :=
  if month = 2 then
    if year % 4 = 0 ∧ (year % 100 ≠ 0 ∨ year % 400 = 0) then 29 else 28
  else if month = 4 ∨ month = 6 ∨ month = 9 ∨ month = 11 then 30
  else 31

def afterDate? (text : List Char) : Option (List Char) := do
  let (year, text) ← fixedDigits? 4 text
  let '-' :: text := text | none
  let (month, text) ← fixedDigits? 2 text
  let '-' :: text := text | none
  let (day, text) ← fixedDigits? 2 text
  if 1 ≤ month ∧ month ≤ 12 ∧ 1 ≤ day ∧ day ≤ daysOf year month then some text else none

def afterMinutes? (text : List Char) : Option (List Char) := do
  let (hour, text) ← fixedDigits? 2 text
  let ':' :: text := text | none
  let (minute, text) ← fixedDigits? 2 text
  if hour < 24 ∧ minute < 60 then some text else none

/-- Reads a time of day, in which a leap second may stand; gives what follows it. -/
def afterTime? (text : List Char) : Option (List Char) := do
  let ':' :: text ← afterMinutes? text | none
  let (second, text) ← fixedDigits? 2 text
  if 60 < second then none
  else
    match text with
    | '.' :: text =>
      if (text.takeWhile Char.isDigit).isEmpty then none
      else some (text.dropWhile Char.isDigit)
    | text => some text

/-- The text is a complete offset from universal time. -/
def isOffset : List Char → Bool
  | ['Z'] => true
  | ['z'] => true
  | '+' :: text => afterMinutes? text == some []
  | '-' :: text => afterMinutes? text == some []
  | _ => false

/-- The text is a complete time of day, perhaps with an offset. -/
def isTimeWithOffset (text : List Char) : Bool :=
  match afterTime? text with
  | some rest => rest.isEmpty || isOffset rest
  | none => false

def isDate (text : List Char) : Bool :=
  afterDate? text == some []

/-- The text is a date, a time of day, or a date and a time in one word. -/
def isDateTime (text : List Char) : Bool :=
  isDate text || afterTime? text == some [] ||
    (match afterDate? text with
      | some ('T' :: time) => isTimeWithOffset time
      | some ('t' :: time) => isTimeWithOffset time
      | _ => false)

def word? (text : List Char) : Option Toml :=
  if text = ['t', 'r', 'u', 'e'] then some (.boolean true)
  else if text = ['f', 'a', 'l', 's', 'e'] then some (.boolean false)
  else if isDateTime text then some .dateTime
  else (integer? text).or (float? text)

/-- Reads a scalar that is no string; gives what follows it. -/
def scalar? (text : List Char) : Option (Toml × List Char) := do
  let word := text.takeWhile isWordChar
  let rest := text.dropWhile isWordChar
  let value ← word? word
  match rest with
  | ' ' :: more =>
    if isDate word && isTimeWithOffset (more.takeWhile isWordChar) then
      some (.dateTime, more.dropWhile isWordChar)
    else some (value, rest)
  | _ => some (value, rest)

end Toml
end CallImpact
