/-!
# Blank characters

The characters with the Unicode property `White_Space`, trimming by that
property, and lower-casing of the ASCII letters alone.
-/

namespace CallImpact
namespace Text

/-- The Unicode property `White_Space`. -/
def isBlank (c : Char) : Bool :=
  let code := c.toNat
  (0x09 ≤ code && code ≤ 0x0D) || code == 0x20 || code == 0x85 || code == 0xA0 ||
    code == 0x1680 || (0x2000 ≤ code && code ≤ 0x200A) || code == 0x2028 ||
    code == 0x2029 || code == 0x202F || code == 0x205F || code == 0x3000

/-- Drops the blank characters at both ends. -/
def trimBlank (text : List Char) : List Char :=
  ((text.dropWhile isBlank).reverse.dropWhile isBlank).reverse

/-- Lower-cases the ASCII letters and leaves every other character as it is. -/
def asciiLower (text : List Char) : List Char :=
  text.map Char.toLower

end Text
end CallImpact
