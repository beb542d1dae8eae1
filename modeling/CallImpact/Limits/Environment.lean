import CallImpact.Limits
import CallImpact.Text.Blank

/-!
# Limits from the environment

Each limit can be overridden by an optional text.  A text that is no number
leaves the limit as it was, so one bad setting does not affect the other.
-/

namespace CallImpact
namespace Limits

def withoutPlus : List Char → List Char
  | '+' :: text => text
  | text => text

/-- The number written by a text: blanks around it, one plus sign and leading
zeros do not matter, and a word of 64 bits has to hold it. -/
def number? (text : List Char) : Option UInt64 := do
  let n ← Text.ofDigits? (withoutPlus (Text.trimBlank text))
  if n < UInt64.size then some (UInt64.ofNat n) else none

/-- The number that a setting gives.  A blank setting gives none, and so does one
of the words that say that there is no limit. -/
def setting? (noLimit : List String) (text : String) : Option UInt64 :=
  let trimmed := Text.trimBlank text.toList
  if String.ofList trimmed ∈ "" :: noLimit then none else number? trimmed

/-- The words for an unlimited number of references. -/
def noLimit : List String :=
  ["none", "off"]

/-- Replaces each limit for which there is a setting. -/
def override (l : Limits) (minimum maximum : Option String) : Limits :=
  { minNameLength := (minimum.bind (setting? [])).getD l.minNameLength
    maxReferences := (maximum.bind (setting? noLimit)).or l.maxReferences }

/-- The default limits with the settings applied. -/
def ofSettings (minimum maximum : Option String) : Except ImpactError Limits :=
  (override {} minimum maximum).checked

end Limits
end CallImpact
