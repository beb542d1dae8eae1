import CallImpact.Text.Decimal
import CallImpact.Toml

/-!
# TOML strings

Strings in double quotes have escapes, strings in single quotes have none.
Either kind may run over several lines between three quotes; up to two quotes may
then stand anywhere inside, also right before the end.
-/

namespace CallImpact
namespace Toml

/-- The characters that may stand in a line: all but control characters, of
which the tabulator is allowed. -/
def isLineChar (c : Char) : Bool :=
  c == '\t' || (0x20 ≤ c.toNat && c.toNat ≠ 0x7F)

def shortEscape? (c : Char) : Option Char :=
  if c = 'b' then some '\x08'
  else if c = 't' then some '\t'
  else if c = 'n' then some '\n'
  else if c = 'f' then some '\x0c'
  else if c = 'r' then some '\r'
  else if c = '"' then some '"'
  else if c = '\\' then some '\\'
  else none

def ofCode? (code : Nat) : Option Char :=
  if h : code.isValidChar then some (Char.ofNatAux code h) else none

/-- Where in a string the next character stands. -/
inductive QuotedPlace where
  /-- After that many quotes that may yet be text. -/
  | text (quotes : Nat)
  | escape
  /-- In the hexadecimal digits of an escape, of which `missing + 1` are to come. -/
  | hex (code missing : Nat)
  /-- After a backslash at the end of a line, in blanks that do not count;
  `ended` says that the line is over. -/
  | fold (ended : Bool)

/-- What follows a backslash, and the characters so far, last one first. -/
def afterBackslash? (acc : List Char) (c : Char) : Option (QuotedPlace × List Char) :=
  if c = 'u' then some (.hex 0 3, acc)
  else if c = 'U' then some (.hex 0 7, acc)
  else (shortEscape? c).map fun value => (.text 0, value :: acc)

def afterHex? (acc : List Char) (code missing : Nat) (c : Char) :
    Option (QuotedPlace × List Char) := do
  let code := code * 16 + (← Text.hexValue? c)
  match missing with
  | 0 => (ofCode? code).map fun value => (.text 0, value :: acc)
  | more + 1 => some (.hex code more, acc)

/-- Reads the rest of a string of one line in double quotes; gives its text and
what follows it. -/
def basicFrom? : QuotedPlace → List Char → List Char → Option (String × List Char)
  | _, _, [] => none
  | .text _, acc, c :: rest =>
    if c = '"' then some (String.ofList acc.reverse, rest)
    else if c = '\\' then basicFrom? .escape acc rest
    else if isLineChar c then basicFrom? (.text 0) (c :: acc) rest
    else none
  | .escape, acc, c :: rest =>
    (afterBackslash? acc c).bind fun (place, acc) => basicFrom? place acc rest
  | .hex code missing, acc, c :: rest =>
    (afterHex? acc code missing c).bind fun (place, acc) => basicFrom? place acc rest
  | .fold _, _, _ :: _ => none

/-- Reads the rest of a string of one line in single quotes; gives its text and
what follows it. -/
def literal? (text : List Char) : Option (String × List Char) :=
  let chars := text.takeWhile fun c => c != '\x27' && isLineChar c
  match text.dropWhile fun c => c != '\x27' && isLineChar c with
  | '\x27' :: rest => some (String.ofList chars, rest)
  | _ => none

/-- Reads a character of a string of several lines after `quotes` quotes. -/
def onText? (quote : Char) (quotes : Nat) (acc : List Char) (c : Char) :
    Option (QuotedPlace × List Char) :=
  if c = quote then if quotes < 5 then some (.text (quotes + 1), acc) else none
  else
    let acc := List.replicate quotes quote ++ acc
    if c = '\\' ∧ quote = '"' then some (.escape, acc)
    else if c = '\n' ∨ isLineChar c then some (.text 0, c :: acc)
    else none

/-- Reads the rest of a string of several lines; gives its text and what follows
it.  Three quotes end it, or up to five if two of them are text. -/
def linesFrom? (quote : Char) :
    QuotedPlace → List Char → List Char → Option (String × List Char)
  | .text quotes, acc, [] =>
    if 3 ≤ quotes then
      some (String.ofList (List.replicate (quotes - 3) quote ++ acc).reverse, [])
    else none
  | .text quotes, acc, c :: rest =>
    if c ≠ quote ∧ 3 ≤ quotes then
      some (String.ofList (List.replicate (quotes - 3) quote ++ acc).reverse, c :: rest)
    else
      (onText? quote quotes acc c).bind fun (place, acc) => linesFrom? quote place acc rest
  | .escape, acc, c :: rest =>
    if c = ' ' ∨ c = '\t' then linesFrom? quote (.fold false) acc rest
    else if c = '\n' then linesFrom? quote (.fold true) acc rest
    else (afterBackslash? acc c).bind fun (place, acc) => linesFrom? quote place acc rest
  | .hex code missing, acc, c :: rest =>
    (afterHex? acc code missing c).bind fun (place, acc) => linesFrom? quote place acc rest
  | .fold ended, acc, c :: rest =>
    if c = ' ' ∨ c = '\t' then linesFrom? quote (.fold ended) acc rest
    else if c = '\n' then linesFrom? quote (.fold true) acc rest
    else if ended then
      (onText? quote 0 acc c).bind fun (place, acc) => linesFrom? quote place acc rest
    else none
  | _, _, [] => none

/-- A line break right after the opening quotes does not count. -/
def dropFirstBreak : List Char → List Char
  | '\n' :: rest => rest
  | text => text

def quoted? : List Char → Option (String × List Char)
  | '"' :: '"' :: '"' :: rest => linesFrom? '"' (.text 0) [] (dropFirstBreak rest)
  | '\x27' :: '\x27' :: '\x27' :: rest => linesFrom? '\x27' (.text 0) [] (dropFirstBreak rest)
  | '"' :: rest => basicFrom? (.text 0) [] rest
  | '\x27' :: rest => literal? rest
  | _ => none

end Toml
end CallImpact
