import CallImpact.Json.Number

/-!
# The tokens of a JSON text

A text is a list of symbols: characters, and `none` for bytes that belong to no
character.  Reading one symbol at a time turns it into tokens: brackets, commas
and colons, strings, and the words that stand for a number or a constant.

Strings are kept in the units they are written in, and joined when the string
ends: an escape names a unit of sixteen bits, of which two make a character
outside the basic plane.
-/

namespace CallImpact
namespace Json

/-- One unit of the text between two quotes. -/
inductive Unit16 where
  | char (value : Char)
  /-- A unit written as four hexadecimal digits. -/
  | escaped (code : Nat)
  /-- Bytes of no character. -/
  | broken

/-- The first units of surrogate pairs. -/
def isHighSurrogate (code : Nat) : Bool :=
  0xD800 ≤ code && code < 0xDC00

/-- The second units of surrogate pairs. -/
def isLowSurrogate (code : Nat) : Bool :=
  0xDC00 ≤ code && code < 0xE000

/-- The characters that the units stand for.  There are none if a unit is
broken or half of a surrogate pair stands alone. -/
def joinUnits : List Unit16 → Option (List Char)
  | [] => some []
  | .char c :: rest => (joinUnits rest).map (c :: ·)
  | .escaped high :: .escaped low :: rest =>
    if isHighSurrogate high && isLowSurrogate low then
      (joinUnits rest).map
        (Char.ofNat (0x10000 + (high - 0xD800) * 0x400 + (low - 0xDC00)) :: ·)
    else if isHighSurrogate high || isLowSurrogate high then none
    else (joinUnits (.escaped low :: rest)).map (Char.ofNat high :: ·)
  | .escaped code :: rest =>
    if isHighSurrogate code || isLowSurrogate code then none
    else (joinUnits rest).map (Char.ofNat code :: ·)
  | .broken :: _ => none

/-- A lexical unit of a JSON text. -/
inductive Token where
  | openBrace
  | closeBrace
  | openBracket
  | closeBracket
  | colon
  | comma
  /-- A string, without a text if none can be joined from its units. -/
  | text (value : Option String)
  | leaf (value : Json)

/-- The value of a word. -/
def word? (word : List Char) : Option Json :=
  if word = ['n', 'u', 'l', 'l'] then some .null
  else if word = ['t', 'r', 'u', 'e'] then some (.bool true)
  else if word = ['f', 'a', 'l', 's', 'e'] then some (.bool false)
  else number? word

/-- The characters that words are made of. -/
def isWordChar (c : Char) : Bool :=
  c.isAlphanum || c == '+' || c == '-' || c == '.'

def isSpace (c : Char) : Bool :=
  c == ' ' || c == '\n' || c == '\r' || c == '\t'

/-- The token that a character is by itself. -/
def punctuation? (c : Char) : Option Token :=
  if c = '\x7b' then some .openBrace
  else if c = '\x7d' then some .closeBrace
  else if c = '[' then some .openBracket
  else if c = ']' then some .closeBracket
  else if c = ':' then some .colon
  else if c = ',' then some .comma
  else none

def shortEscape? (c : Char) : Option Char :=
  if c = '"' then some '"'
  else if c = '\\' then some '\\'
  else if c = '/' then some '/'
  else if c = 'b' then some '\x08'
  else if c = 'f' then some '\x0c'
  else if c = 'n' then some '\n'
  else if c = 'r' then some '\r'
  else if c = 't' then some '\t'
  else none

/-- Where in a token the next symbol stands.  Units and characters read so far
are kept with the last one first. -/
inductive Place where
  | between
  | word (chars : List Char)
  | text (units : List Unit16)
  /-- After a backslash in a string. -/
  | escape (units : List Unit16)
  /-- In the hexadecimal digits of an escape, of which `missing + 1` are to come. -/
  | hex (units : List Unit16) (code missing : Nat)

/-- A text read up to some symbol: the tokens so far, last one first. -/
structure Scan where
  tokens : List Token := []
  place : Place := .between

namespace Scan

def ended (units : List Unit16) : Token :=
  .text ((joinUnits units.reverse).map String.ofList)

def start (tokens : List Token) : Option Char → Option Scan
  | none => none
  | some c =>
    if isSpace c then some ⟨tokens, .between⟩
    else if c = '"' then some ⟨tokens, .text []⟩
    else if isWordChar c then some ⟨tokens, .word [c]⟩
    else (punctuation? c).map fun t => ⟨t :: tokens, .between⟩

/-- Ends a word before a symbol that is not part of it. -/
def endWord (tokens : List Token) (chars : List Char) : Option (List Token) :=
  (word? chars.reverse).map fun value => .leaf value :: tokens

def step (s : Scan) (symbol : Option Char) : Option Scan :=
  match s.place, symbol with
  | .between, symbol => start s.tokens symbol
  | .word chars, none => (endWord s.tokens chars).bind (start · none)
  | .word chars, some c =>
    if isWordChar c then some { s with place := .word (c :: chars) }
    else (endWord s.tokens chars).bind (start · (some c))
  | .text units, none => some { s with place := .text (.broken :: units) }
  | .text units, some c =>
    if c = '"' then some ⟨ended units :: s.tokens, .between⟩
    else if c = '\\' then some { s with place := .escape units }
    else if c.toNat < 0x20 then none
    else some { s with place := .text (.char c :: units) }
  | .escape _, none => none
  | .escape units, some c =>
    if c = 'u' then some { s with place := .hex units 0 3 }
    else (shortEscape? c).map fun value => { s with place := .text (.char value :: units) }
  | .hex _ _ _, none => none
  | .hex units code missing, some c => do
    let value ← Text.hexValue? c
    match missing with
    | 0 => some { s with place := .text (.escaped (code * 16 + value) :: units) }
    | more + 1 => some { s with place := .hex units (code * 16 + value) more }

/-- The tokens of a text that ends here, in order. -/
def finish (s : Scan) : Option (List Token) :=
  match s.place with
  | .between => some s.tokens.reverse
  | .word chars => (endWord s.tokens chars).map List.reverse
  | _ => none

end Scan

/-- The tokens of a text, or `none` if the text is no sequence of tokens. -/
def tokens? (symbols : List (Option Char)) : Option (List Token) :=
  (symbols.foldlM Scan.step {}).bind Scan.finish

end Json
end CallImpact
