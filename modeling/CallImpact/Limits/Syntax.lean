import CallImpact.Document.Graph
import CallImpact.Toml.Reader

/-!
# Limits written as documents

Limits are written as JSON or as TOML.  A text is read as JSON first, and as TOML
only if that fails, since a few texts belong to both syntaxes.  Either way limits
that allow no reference are refused.
-/

namespace CallImpact
namespace Limits

/-- A number that is not negative. -/
def tomlNumber? : Toml → Option UInt64
  | .integer value => if 0 ≤ value then some (UInt64.ofNat value.toNat) else none
  | _ => none

/-- The limits that a TOML document holds; other keys are ignored. -/
def ofToml? (members : Toml.Members) : Option Limits := do
  let minimum ← match members.lookup "min_index_name_len" with
    | some value => tomlNumber? value
    | none => some 0
  let maximum ← match members.lookup "max_references_per_function" with
    | some value => (tomlNumber? value).map some
    | none => some none
  pure ⟨minimum, maximum⟩

def readJson? (bytes : List UInt8) : Option Limits :=
  (Json.ofBytes? bytes).bind Document.ofJson?

def readToml? (text : List Char) : Option Limits :=
  (Toml.read? text).bind ofToml?

def read (bytes : List UInt8) : Except ImpactError Limits :=
  match readJson? bytes with
  | some limits => limits.checked
  | none =>
    match Utf8.decode bytes with
    | .error fault => .error (.invalidLimits (.notUtf8 fault))
    | .ok text =>
      match readToml? text with
      | some limits => limits.checked
      | none => .error (.invalidLimits .neitherSyntax)

end Limits
end CallImpact
