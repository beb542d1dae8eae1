import CallImpact.Text.Utf8
import Mathlib.Data.List.Basic

/-!
# Texts are read back from their bytes

The bytes of a text are read as its characters and nothing else.  A character has one to four
bytes; what rules out a second byte (an overlong form, a surrogate, a number above the last code
point) never meets the bytes of a character.
-/

namespace CallImpact
namespace Utf8

variable {a b c d : UInt8} {rest : List UInt8}

/-! ## Characters of one to four bytes -/

theorem isContinuation_iff : isContinuation b = true ↔ 0x80 ≤ b.toNat ∧ b.toNat ≤ 0xBF := by
  simp [isContinuation, UInt8.le_iff_toNat_le]

theorem secondOfThree_iff :
    secondOfThree a b = true ↔ (0x80 ≤ b.toNat ∧ b.toNat ≤ 0xBF) ∧
      (a.toNat = 0xE0 → 0xA0 ≤ b.toNat) ∧ (a.toNat = 0xED → b.toNat ≤ 0x9F) := by
  have hlow : a = 0xE0 ↔ a.toNat = 0xE0 := UInt8.toNat_inj.symm
  have hhigh : a = 0xED ↔ a.toNat = 0xED := UInt8.toNat_inj.symm
  simp only [secondOfThree, isContinuation, beq_iff_eq, hlow, hhigh]
  split_ifs <;> simp [UInt8.le_iff_toNat_le] <;> omega

theorem secondOfFour_iff :
    secondOfFour a b = true ↔ (0x80 ≤ b.toNat ∧ b.toNat ≤ 0xBF) ∧
      (a.toNat = 0xF0 → 0x90 ≤ b.toNat) ∧ (a.toNat = 0xF4 → b.toNat ≤ 0x8F) := by
  have hlow : a = 0xF0 ↔ a.toNat = 0xF0 := UInt8.toNat_inj.symm
  have hhigh : a = 0xF4 ↔ a.toNat = 0xF4 := UInt8.toNat_inj.symm
  simp only [secondOfFour, isContinuation, beq_iff_eq, hlow, hhigh]
  split_ifs <;> simp [UInt8.le_iff_toNat_le] <;> omega

theorem pieces_one (h : a.toNat < 0x80) :
    pieces (a :: rest) = .char (Char.ofNat a.toNat) :: pieces rest := by
  have hone : a < 0x80 := UInt8.lt_iff_toNat_lt.mpr h
  rw [pieces.eq_def]
  simp only [if_pos hone]

theorem pieces_two (ha : 0xC2 ≤ a.toNat ∧ a.toNat ≤ 0xDF) (hb : isContinuation b = true) :
    pieces (a :: b :: rest) =
      .char (Char.ofNat (a.toNat % 0x20 * 0x40 + low b)) :: pieces rest := by
  have hone : ¬ a < 0x80 := by
    simp only [UInt8.lt_iff_toNat_lt, UInt8.reduceToNat]
    omega
  have htwo : (0xC2 ≤ a && a ≤ 0xDF) = true := by
    simpa [UInt8.le_iff_toNat_le] using ha
  rw [pieces.eq_def]
  simp only [if_neg hone, if_pos htwo, if_pos hb]

theorem pieces_three (ha : 0xE0 ≤ a.toNat ∧ a.toNat ≤ 0xEF) (hb : secondOfThree a b = true)
    (hc : isContinuation c = true) :
    pieces (a :: b :: c :: rest) =
      .char (Char.ofNat ((a.toNat % 0x10 * 0x40 + low b) * 0x40 + low c)) :: pieces rest := by
  have hone : ¬ a < 0x80 := by
    simp only [UInt8.lt_iff_toNat_lt, UInt8.reduceToNat]
    omega
  have htwo : ¬ (0xC2 ≤ a && a ≤ 0xDF) = true := by
    simp only [Bool.and_eq_true, decide_eq_true_eq, UInt8.le_iff_toNat_le, UInt8.reduceToNat]
    omega
  have hthree : (0xE0 ≤ a && a ≤ 0xEF) = true := by
    simpa [UInt8.le_iff_toNat_le] using ha
  rw [pieces.eq_def]
  simp only [if_neg hone, if_neg htwo, if_pos hthree, if_pos hb, if_pos hc]

theorem pieces_four (ha : 0xF0 ≤ a.toNat ∧ a.toNat ≤ 0xF4) (hb : secondOfFour a b = true)
    (hc : isContinuation c = true) (hd : isContinuation d = true) :
    pieces (a :: b :: c :: d :: rest) =
      .char (Char.ofNat (((a.toNat % 0x08 * 0x40 + low b) * 0x40 + low c) * 0x40 + low d)) ::
        pieces rest := by
  have hone : ¬ a < 0x80 := by
    simp only [UInt8.lt_iff_toNat_lt, UInt8.reduceToNat]
    omega
  have htwo : ¬ (0xC2 ≤ a && a ≤ 0xDF) = true := by
    simp only [Bool.and_eq_true, decide_eq_true_eq, UInt8.le_iff_toNat_le, UInt8.reduceToNat]
    omega
  have hthree : ¬ (0xE0 ≤ a && a ≤ 0xEF) = true := by
    simp only [Bool.and_eq_true, decide_eq_true_eq, UInt8.le_iff_toNat_le, UInt8.reduceToNat]
    omega
  have hfour : (0xF0 ≤ a && a ≤ 0xF4) = true := by
    simpa [UInt8.le_iff_toNat_le] using ha
  rw [pieces.eq_def]
  simp only [if_neg hone, if_neg htwo, if_neg hthree, if_pos hfour, if_pos hb, if_pos hc,
    if_pos hd]

/-! ## Texts -/

/-- The bytes of a character are read as the character. -/
theorem pieces_utf8EncodeChar (char : Char) (rest : List UInt8) :
    pieces (String.utf8EncodeChar char ++ rest) = .char char :: pieces rest := by
  obtain ⟨code, hcode⟩ : ∃ code, char.toNat = code := ⟨_, rfl⟩
  have hchar : Char.ofNat code = char := hcode ▸ Char.ofNat_toNat char
  have hvalid : code < 0xD800 ∨ 0xDFFF < code ∧ code < 0x110000 := hcode ▸ char.valid
  have hword : char.val.toNat = code := hcode
  have htoNat : ∀ n < 256, (UInt8.ofNat n).toNat = n := fun n hn => UInt8.toNat_ofNat_of_lt' hn
  simp only [String.utf8EncodeChar, hword]
  split_ifs with hone htwo hthree
  · have ha := htoNat code (by omega)
    rw [List.singleton_append, pieces_one (by omega), ha, hchar]
  · have ha := htoNat (code / 64 % 32 + 192) (by omega)
    have hb := htoNat (code % 64 + 128) (by omega)
    rw [List.cons_append, List.singleton_append, pieces_two (by omega)
      (isContinuation_iff.mpr (by omega)), low, ha, hb, ← hchar]
    congr 3
    omega
  · have ha := htoNat (code / 4096 % 16 + 224) (by omega)
    have hb := htoNat (code / 64 % 64 + 128) (by omega)
    have hc := htoNat (code % 64 + 128) (by omega)
    rw [List.cons_append, List.cons_append, List.singleton_append, pieces_three (by omega)
      (secondOfThree_iff.mpr (by omega)) (isContinuation_iff.mpr (by omega)), low, low, ha, hb,
      hc, ← hchar]
    congr 3
    omega
  · have ha := htoNat (code / 262144 % 8 + 240) (by omega)
    have hb := htoNat (code / 4096 % 64 + 128) (by omega)
    have hc := htoNat (code / 64 % 64 + 128) (by omega)
    have hd := htoNat (code % 64 + 128) (by omega)
    rw [List.cons_append, List.cons_append, List.cons_append, List.singleton_append,
      pieces_four (by omega) (secondOfFour_iff.mpr (by omega))
        (isContinuation_iff.mpr (by omega)) (isContinuation_iff.mpr (by omega)), low, low, low,
      ha, hb, hc, hd, ← hchar]
    congr 3
    omega

/-- The bytes of a text. -/
def encode (text : String) : List UInt8 :=
  text.toUTF8.data.toList

theorem encode_eq_flatMap (text : String) :
    encode text = text.toList.flatMap String.utf8EncodeChar := by
  have hbytes : text.toUTF8 = text.toList.utf8Encode := String.utf8Encode_toList.symm
  rw [encode, hbytes]
  exact List.toList_data_toByteArray

/-- The bytes of a text are read as its characters. -/
theorem pieces_encode (text : String) : pieces (encode text) = text.toList.map .char := by
  rw [encode_eq_flatMap]
  induction text.toList with
  | nil => rfl
  | cons c chars ih => rw [List.flatMap_cons, pieces_utf8EncodeChar, ih, List.map_cons]

theorem strict_map_char (index : Nat) (chars : List Char) :
    strict index (chars.map .char) = .ok chars := by
  induction chars generalizing index with
  | nil => rfl
  | cons c chars ih =>
    rw [List.map_cons, strict, ih]
    rfl

theorem decode_encode (text : String) : decode (encode text) = .ok text.toList := by
  rw [decode, pieces_encode, strict_map_char]

theorem symbols_encode (text : String) : symbols (encode text) = text.toList.map some := by
  rw [symbols, pieces_encode, List.map_map]
  rfl

end Utf8
end CallImpact
