import CallImpact.Text.Blank

/-!
# Source languages

The languages an entity can come from, their exact names in documents, and two
forgiving readings: of a file extension and of a name typed by a user.
-/

namespace CallImpact

/-- The language an entity was extracted from. -/
inductive Language where
  | golang
  | java
  | python
  | kotlin
  | javaScript
  | unknown
deriving DecidableEq

namespace Language

instance : Inhabited Language := ⟨.unknown⟩

def name : Language → String
  | golang => "golang"
  | java => "java"
  | python => "python"
  | kotlin => "kotlin"
  | javaScript => "javascript"
  | unknown => "unknown"

def ofName? : String → Option Language
  | "golang" => some golang
  | "java" => some java
  | "python" => some python
  | "kotlin" => some kotlin
  | "javascript" => some javaScript
  | "unknown" => some unknown
  | _ => none

theorem ofName?_name (l : Language) : ofName? l.name = some l := by
  cases l <;> rfl

/-- The language of files with this extension, given without its dot and in
either case. -/
def ofExtension (extension : String) : Language :=
  match String.ofList (Text.asciiLower extension.toList) with
  | "go" => golang
  | "java" => java
  | "py" => python
  | "pyi" => python
  | "kt" => kotlin
  | "kts" => kotlin
  | "js" => javaScript
  | "mjs" => javaScript
  | "cjs" => javaScript
  | "jsx" => javaScript
  | _ => unknown

/-- The language a user means: blanks around the name and case do not matter,
and two languages have a short name. -/
def ofText (text : String) : Language :=
  match String.ofList (Text.asciiLower (Text.trimBlank text.toList)) with
  | "golang" => golang
  | "go" => golang
  | "java" => java
  | "python" => python
  | "kotlin" => kotlin
  | "javascript" => javaScript
  | "js" => javaScript
  | _ => unknown

end Language
end CallImpact
