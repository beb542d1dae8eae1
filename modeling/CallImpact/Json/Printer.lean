import CallImpact.Decimal.Shortest
import CallImpact.Json

/-!
# Writing JSON texts

A tree is written without blanks.  Strings escape the quote, the backslash and
the control characters, and nothing else.  Doubles have the fewest digits that
identify them.
-/

namespace CallImpact
namespace Json

def hexDigit (n : Nat) : Char :=
  if n < 10 then Char.ofNat ('0'.toNat + n) else Char.ofNat ('a'.toNat + (n - 10))

/-- A character as it is written between quotes. -/
def escapedChar (c : Char) : List Char :=
  if c = '"' then ['\\', '"']
  else if c = '\\' then ['\\', '\\']
  else if c = '\x08' then ['\\', 'b']
  else if c = '\x0c' then ['\\', 'f']
  else if c = '\n' then ['\\', 'n']
  else if c = '\r' then ['\\', 'r']
  else if c = '\t' then ['\\', 't']
  else if c.toNat < 0x20 then
    ['\\', 'u', '0', '0', hexDigit (c.toNat / 16), hexDigit (c.toNat % 16)]
  else [c]

def quoted (text : String) : List Char :=
  '"' :: text.toList.flatMap escapedChar ++ ['"']

def integerChars (value : Int) : List Char :=
  if value < 0 then '-' :: Text.digits value.natAbs else Text.digits value.natAbs

/-- A decimal, positionally if its leading digit stands for `10 ^ -5` to
`10 ^ 15`.  Positional notation has digits on both sides of the point. -/
def decimalChars (d : Decimal) : List Char :=
  let digits := Text.digits d.significand
  let order := d.exponent + digits.length
  let unsigned :=
    if 0 ≤ d.exponent ∧ order ≤ 16 then
      digits ++ List.replicate d.exponent.toNat '0' ++ ['.', '0']
    else if 0 < order ∧ order ≤ 16 then
      digits.take order.toNat ++ '.' :: digits.drop order.toNat
    else if -5 < order ∧ order ≤ 0 then
      '0' :: '.' :: List.replicate (-order).toNat '0' ++ digits
    else
      (if digits.length = 1 then digits else digits.take 1 ++ '.' :: digits.drop 1) ++
        'e' :: integerChars (order - 1)
  if d.negative then '-' :: unsigned else unsigned

mutual

/-- The written form of a tree.  A place without a value is written `null`; no
document holds one. -/
def chars : Json → List Char
  | .null => ['n', 'u', 'l', 'l']
  | .bool true => ['t', 'r', 'u', 'e']
  | .bool false => ['f', 'a', 'l', 's', 'e']
  | .int value => integerChars value
  | .real value => decimalChars (Decimal.shortest value)
  | .string text => quoted text
  | .array [] => ['[', ']']
  | .array (x :: xs) => '[' :: x.chars ++ charsOfItems xs ++ [']']
  | .object [] => ['\x7b', '\x7d']
  | .object ((k, x) :: ms) =>
    '\x7b' :: quoted k ++ ':' :: x.chars ++ charsOfMembers ms ++ ['\x7d']
  | .unreadable => ['n', 'u', 'l', 'l']

/-- The items after the first, a comma before each. -/
def charsOfItems : List Json → List Char
  | [] => []
  | x :: xs => ',' :: x.chars ++ charsOfItems xs

def charsOfMembers : List (String × Json) → List Char
  | [] => []
  | (k, x) :: ms => ',' :: quoted k ++ ':' :: x.chars ++ charsOfMembers ms

end

def render (j : Json) : String :=
  String.ofList j.chars

end Json
end CallImpact
