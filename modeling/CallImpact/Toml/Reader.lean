import CallImpact.Toml.Key
import CallImpact.Toml.Scalar

/-!
# Reading TOML documents

A document is a sequence of lines: pairs of a key and a value, headers of tables,
comments and empty lines.  Values nest in arrays, which may run over several
lines, and in tables in braces, which may not.
-/

namespace CallImpact
namespace Toml

/-- Makes every line end with a line feed alone.  A carriage return has no other
place in a document. -/
def unifyBreaks? : List Char → Option (List Char)
  | [] => some []
  | '\r' :: '\n' :: rest => (unifyBreaks? rest).map ('\n' :: ·)
  | c :: rest => if c = '\r' then none else (unifyBreaks? rest).map (c :: ·)

def dropComment : List Char → List Char
  | '#' :: rest => rest.dropWhile isLineChar
  | text => text

/-- Drops blanks, line breaks and comments; `comment` says that the text starts
inside a comment. -/
def dropSpaceFrom (comment : Bool) : List Char → List Char
  | [] => []
  | c :: rest =>
    if comment then
      if c = '\n' then dropSpaceFrom false rest
      else if isLineChar c then dropSpaceFrom true rest
      else c :: rest
    else if c = ' ' ∨ c = '\t' ∨ c = '\n' then dropSpaceFrom false rest
    else if c = '#' then dropSpaceFrom true rest
    else c :: rest

/-- Drops everything between the items of an array. -/
def dropSpace (text : List Char) : List Char :=
  dropSpaceFrom false text

mutual

/-- Reads a value inside `depth` containers; gives what follows it. -/
def valueFrom? (depth : Nat) : Nat → List Char → Option (Toml × List Char)
  | 0, _ => none
  | fuel + 1, '[' :: rest =>
    if depth < maxNesting then itemsFrom? (depth + 1) fuel [] rest else none
  | fuel + 1, '\x7b' :: rest =>
    if depth < maxNesting then
      match dropBlanks rest with
      | '\x7d' :: rest => (ofPairs? []).map (·, rest)
      | rest => pairsFrom? (depth + 1) fuel [] rest
    else none
  | _ + 1, text =>
    match text.head? with
    | some '"' => (quoted? text).map fun (value, rest) => (.string value, rest)
    | some '\x27' => (quoted? text).map fun (value, rest) => (.string value, rest)
    | _ => scalar? text

/-- Reads the rest of an array, of which the items so far are given, last one
first.  A comma may stand after the last item. -/
def itemsFrom? (depth : Nat) : Nat → List Toml → List Char → Option (Toml × List Char)
  | 0, _, _ => none
  | fuel + 1, items, text =>
    match dropSpace text with
    | ']' :: rest => some (.array items.reverse, rest)
    | text =>
      (valueFrom? depth fuel text).bind fun (value, text) =>
        match dropSpace text with
        | ',' :: rest => itemsFrom? depth fuel (value :: items) rest
        | ']' :: rest => some (.array (value :: items).reverse, rest)
        | _ => none

/-- Reads the rest of a table in braces, of which the pairs so far are given,
last one first. -/
def pairsFrom? (depth : Nat) :
    Nat → List (List String × String × Toml) → List Char → Option (Toml × List Char)
  | 0, _, _ => none
  | fuel + 1, pairs, text =>
    (key? text).bind fun (path, key, text) =>
      match text with
      | '=' :: text =>
        (valueFrom? depth fuel (dropBlanks text)).bind fun (value, text) =>
          match dropBlanks text with
          | ',' :: rest => pairsFrom? depth fuel ((path, key, value) :: pairs) rest
          | '\x7d' :: rest =>
            (ofPairs? ((path, key, value) :: pairs).reverse).map (·, rest)
          | _ => none
      | _ => none

end

/-- Reads a value; gives what follows it.  Every second call consumes a
character, so the fuel lasts. -/
def value? (text : List Char) : Option (Toml × List Char) :=
  valueFrom? 0 (2 * text.length + 2) text

/-- Reads to the end of a line, on which nothing but a comment may stand; gives
the lines that follow. -/
def lineEnd? (text : List Char) : Option (List Char) :=
  match dropComment (dropBlanks text) with
  | [] => some []
  | '\n' :: rest => some rest
  | _ => none

def pair? (text : List Char) : Option (Statement × List Char) := do
  let (path, key, text) ← key? text
  let '=' :: text := text | none
  let (value, text) ← value? (dropBlanks text)
  some (.pair path key value, text)

def statement? : List Char → Option (Statement × List Char)
  | '[' :: '[' :: text => do
    let (path, key, text) ← key? text
    let ']' :: ']' :: text := text | none
    some (.repeatedHeader path key, text)
  | '[' :: text => do
    let (path, key, text) ← key? text
    let ']' :: text := text | none
    some (.header path key, text)
  | text => pair? text

/-- Reads the lines of a document; `statements` are those so far, last one first,
and `fuel` bounds the number of lines. -/
def statementsFrom? : Nat → List Statement → List Char → Option (List Statement)
  | 0, _, _ => none
  | fuel + 1, statements, text =>
    match dropBlanks text with
    | [] => some statements.reverse
    | '\n' :: rest => statementsFrom? fuel statements rest
    | '#' :: rest =>
      (lineEnd? ('#' :: rest)).bind fun rest => statementsFrom? fuel statements rest
    | text => do
      let (statement, text) ← statement? text
      let rest ← lineEnd? text
      statementsFrom? fuel (statement :: statements) rest

def dropByteOrderMark : List Char → List Char
  | '\ufeff' :: rest => rest
  | text => text

def read? (text : List Char) : Option Members := do
  let text ← unifyBreaks? (dropByteOrderMark text)
  ofStatements? (← statementsFrom? (text.length + 1) [] text)

end Toml
end CallImpact
