import CallImpact.Toml.Quoted

/-!
# TOML keys

A key has one or more parts with dots between them.  A part is a run of letters,
digits, dashes and underscores, or a string of one line.
-/

namespace CallImpact
namespace Toml

def isKeyChar (c : Char) : Bool :=
  c.isAlphanum || c == '-' || c == '_'

/-- Reads one part of a key; gives what follows it. -/
def keyPart? : List Char → Option (String × List Char)
  | '"' :: rest => basicFrom? (.text 0) [] rest
  | '\x27' :: rest => literal? rest
  | text =>
    let chars := text.takeWhile isKeyChar
    if chars.isEmpty then none else some (String.ofList chars, text.dropWhile isKeyChar)

def dropBlanks (text : List Char) : List Char :=
  text.dropWhile fun c => c == ' ' || c == '\t'

/-- Reads a key of at most `parts` parts with dots between them; gives the parts
before the last, the last part, and what follows it. -/
def dottedKey? : Nat → List Char → Option (List String × String × List Char)
  | 0, _ => none
  | parts + 1, text => do
    let (part, text) ← keyPart? (dropBlanks text)
    match dropBlanks text with
    | '.' :: text =>
      let (path, key, text) ← dottedKey? parts text
      some (part :: path, key, text)
    | text => some ([], part, text)

/-- The greatest number of parts of a key, and of containers that nest. -/
def maxNesting : Nat := 79

def key? (text : List Char) : Option (List String × String × List Char) :=
  dottedKey? maxNesting text

end Toml
end CallImpact
