import CallImpact.Text.Decimal

/-!
# Reading bytes as UTF-8

Bytes are read into pieces: characters, and runs of bytes that belong to no
character.  A run is as long as the longest beginning of a character that the
bytes show, and at least one byte; it is told apart whether the byte after it
rules the character out or the input ends.

The strict reading accepts exactly the inputs without such runs and names the
first one otherwise.
-/

namespace CallImpact
namespace Utf8

/-- What one step of reading finds. -/
inductive Piece where
  | char (value : Char)
  /-- That many bytes begin no character. -/
  | broken (length : Nat)
  /-- The input ends inside a character. -/
  | cut
deriving DecidableEq

/-- Why bytes are not UTF-8: where the readable beginning ends and what follows it. -/
inductive Fault where
  /-- That many bytes at the index begin no character. -/
  | invalid (length index : Nat)
  /-- The input ends inside the character that starts at the index. -/
  | incomplete (index : Nat)
deriving DecidableEq

def Fault.message : Fault → String
  | .invalid length index =>
    "invalid utf-8 sequence of " ++ Text.decimal length ++ " bytes from index " ++
      Text.decimal index
  | .incomplete index => "incomplete utf-8 byte sequence from index " ++ Text.decimal index

def isContinuation (b : UInt8) : Bool :=
  0x80 ≤ b && b ≤ 0xBF

/-- The bytes that may follow the lead byte of a three-byte character: overlong
forms and surrogates are ruled out here. -/
def secondOfThree (lead b : UInt8) : Bool :=
  if lead == 0xE0 then 0xA0 ≤ b && b ≤ 0xBF
  else if lead == 0xED then 0x80 ≤ b && b ≤ 0x9F
  else isContinuation b

/-- The bytes that may follow the lead byte of a four-byte character: overlong
forms and numbers above the last code point are ruled out here. -/
def secondOfFour (lead b : UInt8) : Bool :=
  if lead == 0xF0 then 0x90 ≤ b && b ≤ 0xBF
  else if lead == 0xF4 then 0x80 ≤ b && b ≤ 0x8F
  else isContinuation b

def low (b : UInt8) : Nat :=
  b.toNat % 0x40

def pieces : List UInt8 → List Piece
  | [] => []
  | a :: afterA =>
    if a < 0x80 then .char (Char.ofNat a.toNat) :: pieces afterA
    else if 0xC2 ≤ a && a ≤ 0xDF then
      match afterA with
      | [] => [.cut]
      | b :: afterB =>
        if isContinuation b then
          .char (Char.ofNat (a.toNat % 0x20 * 0x40 + low b)) :: pieces afterB
        else .broken 1 :: pieces (b :: afterB)
    else if 0xE0 ≤ a && a ≤ 0xEF then
      match afterA with
      | [] => [.cut]
      | b :: afterB =>
        if secondOfThree a b then
          match afterB with
          | [] => [.cut]
          | c :: afterC =>
            if isContinuation c then
              .char (Char.ofNat ((a.toNat % 0x10 * 0x40 + low b) * 0x40 + low c)) ::
                pieces afterC
            else .broken 2 :: pieces (c :: afterC)
        else .broken 1 :: pieces (b :: afterB)
    else if 0xF0 ≤ a && a ≤ 0xF4 then
      match afterA with
      | [] => [.cut]
      | b :: afterB =>
        if secondOfFour a b then
          match afterB with
          | [] => [.cut]
          | c :: afterC =>
            if isContinuation c then
              match afterC with
              | [] => [.cut]
              | d :: afterD =>
                if isContinuation d then
                  .char (Char.ofNat
                      (((a.toNat % 0x08 * 0x40 + low b) * 0x40 + low c) * 0x40 + low d)) ::
                    pieces afterD
                else .broken 3 :: pieces (d :: afterD)
            else .broken 2 :: pieces (c :: afterC)
        else .broken 1 :: pieces (b :: afterB)
    else .broken 1 :: pieces afterA

/-- The characters of the pieces, read from byte `index` on, or the first fault. -/
def strict (index : Nat) : List Piece → Except Fault (List Char)
  | [] => .ok []
  | .char c :: rest => do
    let chars ← strict (index + c.utf8Size) rest
    pure (c :: chars)
  | .broken length :: _ => .error (.invalid length index)
  | .cut :: _ => .error (.incomplete index)

/-- Bytes as characters, or the first fault. -/
def decode (bytes : List UInt8) : Except Fault (List Char) :=
  strict 0 (pieces bytes)

/-- A piece as a symbol: its character, or `none` if it has none. -/
def Piece.symbol : Piece → Option Char
  | .char c => some c
  | .broken _ => none
  | .cut => none

/-- Bytes as characters, with `none` for every run that belongs to no character. -/
def symbols (bytes : List UInt8) : List (Option Char) :=
  (pieces bytes).map Piece.symbol

end Utf8
end CallImpact
