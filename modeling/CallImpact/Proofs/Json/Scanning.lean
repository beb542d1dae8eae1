import CallImpact.Json.Printer
import CallImpact.Json.Token
import Mathlib.Algebra.Group.Int.Defs
import Mathlib.Data.List.Forall2
import Mathlib.Data.List.TakeWhile

/-!
# The tokens of written trees

A tree whose numbers are integers of 64 bits is written as the text of its tokens: scanning
the text gives `tokens` back.  A number or a constant ends only where the next symbol is no
part of a word, so all statements are about a text that goes on somehow (`Reads`); what goes
on after a value begins with a comma or a closing bracket.
-/

namespace CallImpact
namespace Json

mutual

/-- Every leaf of the tree has the property. -/
def everyLeaf (property : Json → Bool) : Json → Bool
  | .array xs => everyLeafOfItems property xs
  | .object ms => everyLeafOfMembers property ms
  | j => property j

def everyLeafOfItems (property : Json → Bool) : List Json → Bool
  | [] => true
  | x :: xs => x.everyLeaf property && everyLeafOfItems property xs

def everyLeafOfMembers (property : Json → Bool) : List (String × Json) → Bool
  | [] => true
  | (_, x) :: ms => x.everyLeaf property && everyLeafOfMembers property ms

end

def isExactLeaf : Json → Bool
  | .null | .bool _ | .string _ => true
  | .int value => decide (-2 ^ 63 ≤ value ∧ value < 2 ^ 64)
  | _ => false

/-- The tree has a value at every place, and each of its numbers is an integer that a
word of 64 bits holds. -/
def isExact (j : Json) : Bool :=
  j.everyLeaf isExactLeaf

theorem isExactLeaf_int {value : Int} :
    (Json.int value).isExactLeaf = true ↔ -2 ^ 63 ≤ value ∧ value < 2 ^ 64 :=
  decide_eq_true_iff

mutual

/-- The tokens of a tree in its written form. -/
def tokens : Json → List Token
  | .string text => [.text (some text)]
  | .array [] => [.openBracket, .closeBracket]
  | .array (x :: xs) => .openBracket :: x.tokens ++ tokensOfItems xs ++ [.closeBracket]
  | .object [] => [.openBrace, .closeBrace]
  | .object ((k, x) :: ms) =>
    .openBrace :: .text (some k) :: .colon :: x.tokens ++ tokensOfMembers ms ++ [.closeBrace]
  | j => [.leaf j]

/-- The tokens of the items after the first. -/
def tokensOfItems : List Json → List Token
  | [] => []
  | x :: xs => .comma :: x.tokens ++ tokensOfItems xs

def tokensOfMembers : List (String × Json) → List Token
  | [] => []
  | (k, x) :: ms => .comma :: .text (some k) :: .colon :: x.tokens ++ tokensOfMembers ms

end

/-! ## Words -/

theorem digitChar_ne_zero : ∀ digit < 10, 0 < digit → Nat.digitChar digit ≠ '0' := by
  decide

/-- Of more than one written digit the first is not zero. -/
theorem head?_digits_ne_zero {n : Nat} (h : 10 ≤ n) :
    (Text.digits n).head? ≠ some '0' := by
  induction n using Nat.strongRecOn with
  | ind n ih =>
    rw [Text.digits, Nat.toDigits_of_base_le (by decide) h, ← Text.digits,
      List.head?_append_of_ne_nil _ (Text.digits_spec _).1]
    by_cases hlarge : 10 ≤ n / 10
    · exact ih (n / 10) (by omega) hlarge
    · rw [Text.digits, Nat.toDigits_of_lt_base (by omega), List.head?_cons]
      intro hzero
      exact digitChar_ne_zero _ (by omega) (by omega) (Option.some_inj.mp hzero)

theorem unsigned?_digits (negative : Bool) (n : Nat) :
    unsigned? negative (Text.digits n) = some (ofWhole negative (Text.digits n)) := by
  obtain ⟨hne, hall⟩ := Text.digits_spec n
  rw [List.all_eq_true] at hall
  have hleading : ¬ (1 < (Text.digits n).length ∧ (Text.digits n).head? = some '0') := by
    rintro ⟨hlength, hzero⟩
    by_cases hlarge : 10 ≤ n
    · exact head?_digits_ne_zero hlarge hzero
    · rw [Text.digits, Nat.toDigits_of_lt_base (by omega)] at hlength
      exact absurd hlength (by simp)
  have hsplit : splitDigits (Text.digits n) = (Text.digits n, []) := by
    rw [splitDigits, List.takeWhile_eq_self_iff.mpr hall, List.dropWhile_eq_nil_iff.mpr hall]
  simp only [unsigned?, hsplit, if_neg (not_or.mpr ⟨hne, hleading⟩), if_true]

/-- A text that begins with a digit has no sign. -/
theorem number?_of_isDigit {c : Char} {text : List Char} (h : c.isDigit = true) :
    number? (c :: text) = unsigned? false (c :: text) := by
  rw [number?]
  rintro rest heq
  injection heq with hc
  rw [hc] at h
  exact absurd h (by decide)

theorem number?_digits (n : Nat) :
    number? (Text.digits n) = some (ofWhole false (Text.digits n)) := by
  obtain ⟨hne, hall⟩ := Text.digits_spec n
  rw [← unsigned?_digits]
  obtain ⟨c, rest, hdigits⟩ := List.exists_cons_of_ne_nil hne
  rw [hdigits, List.all_cons, Bool.and_eq_true] at hall
  rw [hdigits, number?_of_isDigit hall.1]

/-- An integer that a word of 64 bits holds is read back exactly. -/
theorem number?_integerChars {value : Int} (hlow : -2 ^ 63 ≤ value) (hhigh : value < 2 ^ 64) :
    number? (integerChars value) = some (.int value) := by
  have hvalue : Nat.ofDigitChars 10 (Text.digits value.natAbs) 0 = value.natAbs :=
    Nat.ofDigitChars_toDigits (by decide) (by decide)
  rw [integerChars]
  split
  · have hrange : 0 < value.natAbs ∧ value.natAbs ≤ 1 <<< 63 := by
      rw [Nat.shiftLeft_eq]
      omega
    have habs : -(value.natAbs : Int) = value := by omega
    rw [number?, unsigned?_digits]
    simp only [ofWhole, hvalue, if_true, if_pos hrange, habs]
  · have hrange : value.natAbs < 1 <<< 64 := by
      rw [Nat.shiftLeft_eq]
      omega
    have habs : (value.natAbs : Int) = value := by omega
    rw [number?_digits]
    simp only [ofWhole, hvalue, Bool.false_eq_true, if_false, if_pos hrange, habs]

theorem eq_or_isDigit_of_mem_integerChars {value : Int} {c : Char}
    (h : c ∈ integerChars value) : c = '-' ∨ c.isDigit = true := by
  have hdigits : ∀ c ∈ Text.digits value.natAbs, c.isDigit = true :=
    List.all_eq_true.mp (Text.digits_spec _).2
  rw [integerChars] at h
  split at h
  · exact (List.mem_cons.mp h).imp_right (hdigits c)
  · exact Or.inr (hdigits c h)

/-- A written integer is no constant. -/
theorem word?_integerChars {value : Int} (hlow : -2 ^ 63 ≤ value) (hhigh : value < 2 ^ 64) :
    word? (integerChars value) = some (.int value) := by
  have hletter : ∀ c : Char, ¬ (c = '-' ∨ c.isDigit = true) → c ∉ integerChars value :=
    fun c hc hmem => hc (eq_or_isDigit_of_mem_integerChars hmem)
  have hl := hletter 'l' (by decide)
  have he := hletter 'e' (by decide)
  rw [word?, if_neg, if_neg, if_neg, number?_integerChars hlow hhigh]
  · intro heq
    exact he (heq ▸ by decide)
  · intro heq
    exact he (heq ▸ by decide)
  · intro heq
    exact hl (heq ▸ by decide)

theorem isWordChar_of_mem_integerChars {value : Int} {c : Char}
    (h : c ∈ integerChars value) : isWordChar c = true := by
  rcases eq_or_isDigit_of_mem_integerChars h with rfl | hdigit
  · decide
  · simp [isWordChar, Char.isAlphanum, hdigit]

theorem integerChars_ne_nil (value : Int) : integerChars value ≠ [] := by
  rw [integerChars]
  split
  · simp
  · exact (Text.digits_spec _).1

/-! ## Scanning a text that goes on -/

namespace Scan

/-- The tokens of a text of which the scan has read the beginning. -/
def scan (s : Scan) (text : List Char) : Option (List Token) :=
  ((text.map some).foldlM Scan.step s).bind Scan.finish

theorem scan_cons (s : Scan) (c : Char) (text : List Char) :
    s.scan (c :: text) = (s.step (some c)).bind (·.scan text) := by
  rw [scan, List.map_cons, List.foldlM_cons]
  exact Option.bind_assoc ..

/-- The text does not begin with a part of a word. -/
def Delimited (text : List Char) : Prop :=
  ∀ c, text.head? = some c → isWordChar c = false

variable {before : List Token} {text rest chars : List Char} {c : Char}

theorem start_of_isWordChar (h : isWordChar c = true) :
    start before (some c) = some ⟨before, .word [c]⟩ := by
  have hspace : isSpace c = false := by
    rw [Bool.eq_false_iff]
    intro hspace
    simp only [isSpace, Bool.or_eq_true, beq_iff_eq] at hspace
    rcases hspace with ((rfl | rfl) | rfl) | rfl <;> exact absurd h (by decide)
  have hquote : c ≠ '"' := by
    rintro rfl
    exact absurd h (by decide)
  rw [start, if_neg (Bool.eq_false_iff.mp hspace), if_neg hquote, if_pos h]

theorem step_word_of_isWordChar (h : isWordChar c = true) :
    step ⟨before, .word chars⟩ (some c) = some ⟨before, .word (c :: chars)⟩ :=
  if_pos h

/-- The end of a word is its token, and is seen at the next symbol. -/
theorem scan_word_of_delimited {value : Json} (hvalue : word? chars.reverse = some value)
    (hrest : Delimited rest) :
    scan ⟨before, .word chars⟩ rest = scan ⟨.leaf value :: before, .between⟩ rest := by
  rcases rest with _ | ⟨c, rest⟩
  · simp only [scan, List.map_nil, List.foldlM_nil, pure, Option.bind_some, finish, endWord,
      hvalue, Option.map_some, List.reverse_cons]
  · have hstep : step ⟨before, .word chars⟩ (some c) =
        step ⟨.leaf value :: before, .between⟩ (some c) := by
      simp only [step, endWord, hvalue, Option.map_some, Option.bind_some,
        if_neg (Bool.eq_false_iff.mp (hrest c rfl))]
    rw [scan_cons, scan_cons, hstep]

theorem scan_word_append (hall : ∀ c ∈ text, isWordChar c = true) :
    scan ⟨before, .word chars⟩ (text ++ rest) =
      scan ⟨before, .word (text.reverse ++ chars)⟩ rest := by
  induction text generalizing chars with
  | nil => rfl
  | cons c text ih =>
    obtain ⟨hc, htext⟩ := List.forall_mem_cons.mp hall
    rw [List.cons_append, scan_cons, step_word_of_isWordChar hc, List.reverse_cons,
      List.append_assoc]
    exact ih htext

end Scan

/-- Between two tokens the text is read as the tokens, if it does not go on with a part of a
word. -/
def Reads (text : List Char) (tokens : List Token) : Prop :=
  ∀ before rest, Scan.Delimited rest →
    Scan.scan ⟨before, .between⟩ (text ++ rest) =
      Scan.scan ⟨tokens.reverse ++ before, .between⟩ rest

/-- At the beginning of a token, a word is read up to its end. -/
theorem Scan.scan_between_word {before : List Token} {text rest : List Char} (hne : text ≠ [])
    (hall : ∀ c ∈ text, isWordChar c = true) :
    Scan.scan ⟨before, .between⟩ (text ++ rest) =
      Scan.scan ⟨before, .word text.reverse⟩ rest := by
  obtain ⟨c, chars, rfl⟩ := List.exists_cons_of_ne_nil hne
  obtain ⟨hc, hchars⟩ := List.forall_mem_cons.mp hall
  have hstart : Scan.step ⟨before, .between⟩ (some c) = some ⟨before, .word [c]⟩ :=
    Scan.start_of_isWordChar hc
  rw [List.cons_append, Scan.scan_cons, hstart, Option.bind_some,
    Scan.scan_word_append hchars, List.reverse_cons]

theorem reads_word {text : List Char} {value : Json} (hvalue : word? text = some value)
    (hne : text ≠ []) (hall : ∀ c ∈ text, isWordChar c = true) :
    Reads text [.leaf value] := by
  intro before rest hrest
  have hword : word? text.reverse.reverse = some value := by rwa [List.reverse_reverse]
  rw [Scan.scan_between_word hne hall, Scan.scan_word_of_delimited hword hrest]
  rfl

/-- A text that begins with a word without a value is no sequence of tokens. -/
theorem tokens?_eq_none_of_word {text rest : List Char} {c : Char} (hvalue : word? text = none)
    (hne : text ≠ []) (hall : ∀ c ∈ text, isWordChar c = true) (hc : isWordChar c = false) :
    tokens? ((text ++ c :: rest).map some) = none := by
  have hstep : Scan.step ⟨[], .word text.reverse⟩ (some c) = none := by
    simp only [Scan.step, hc, Scan.endWord, List.reverse_reverse, hvalue]
    rfl
  calc tokens? ((text ++ c :: rest).map some)
    _ = Scan.scan ⟨[], .between⟩ (text ++ c :: rest) := rfl
    _ = Scan.scan ⟨[], .word text.reverse⟩ (c :: rest) := Scan.scan_between_word hne hall
    _ = none := by rw [Scan.scan_cons, hstep, Option.bind_none]

/-! ## Strings -/

/-- A written character is read as itself or, if it is a control character, as the escape of
its code. -/
def UnitOf (c : Char) (unit : Unit16) : Prop :=
  unit = .char c ∨ unit = .escaped c.toNat ∧ c.toNat < 0x20

theorem joinUnits_escaped {code : Nat} (h : code < 0x20) (units : List Unit16) :
    joinUnits (.escaped code :: units) = (joinUnits units).map (Char.ofNat code :: ·) := by
  have hhigh : isHighSurrogate code = false := by
    simp only [isHighSurrogate, Bool.and_eq_false_iff, decide_eq_false_iff_not]
    omega
  have hlow : isLowSurrogate code = false := by
    simp only [isLowSurrogate, Bool.and_eq_false_iff, decide_eq_false_iff_not]
    omega
  rcases units with _ | ⟨_ | _ | _, units⟩ <;> simp [joinUnits, hhigh, hlow]

theorem joinUnits_of_forall₂ {chars : List Char} {units : List Unit16}
    (h : List.Forall₂ UnitOf chars units) : joinUnits units = some chars := by
  induction h with
  | nil => rfl
  | cons hunit _ ih =>
    rcases hunit with rfl | ⟨rfl, hcode⟩
    · rw [joinUnits, ih, Option.map_some]
    · rw [joinUnits_escaped hcode, ih, Option.map_some, Char.ofNat_toNat]

theorem hexValue?_hexDigit : ∀ n < 16, Text.hexValue? (hexDigit n) = some n := by
  decide

namespace Scan

variable {before : List Token} {text rest : List Char} {units : List Unit16} {c : Char}

theorem scan_of_step {s t : Scan} (h : s.step (some c) = some t) :
    s.scan (c :: text) = t.scan text := by
  rw [scan_cons, h, Option.bind_some]

theorem step_hex {digit code missing : Nat} (h : digit < 16) :
    step ⟨before, .hex units code (missing + 1)⟩ (some (hexDigit digit)) =
      some ⟨before, .hex units (code * 16 + digit) missing⟩ := by
  simp only [step, hexValue?_hexDigit digit h]
  rfl

theorem step_hex_last {digit code : Nat} (h : digit < 16) :
    step ⟨before, .hex units code 0⟩ (some (hexDigit digit)) =
      some ⟨before, .text (.escaped (code * 16 + digit) :: units)⟩ := by
  simp only [step, hexValue?_hexDigit digit h]
  rfl

/-- Inside a string, the written form of a control character is the escape of its code. -/
theorem scan_control {code : Nat} (h : code < 0x20) :
    scan ⟨before, .text units⟩
        (['\\', 'u', '0', '0', hexDigit (code / 16), hexDigit (code % 16)] ++ rest) =
      scan ⟨before, .text (.escaped code :: units)⟩ rest := by
  have hzero : hexDigit 0 = '0' := rfl
  have hhigh : code / 16 < 16 := by omega
  have hlow : code % 16 < 16 := by omega
  have hcode : ((0 * 16 + 0) * 16 + 0) * 16 + code / 16 = code / 16 := by omega
  have hjoin : code / 16 * 16 + code % 16 = code := by omega
  rw [← hzero]
  calc
    _ = scan ⟨before, .hex units 0 3⟩
        ([hexDigit 0, hexDigit 0, hexDigit (code / 16), hexDigit (code % 16)] ++ rest) := rfl
    _ = scan ⟨before, .hex units (0 * 16 + 0) 2⟩
        ([hexDigit 0, hexDigit (code / 16), hexDigit (code % 16)] ++ rest) :=
      scan_of_step (step_hex (by decide))
    _ = scan ⟨before, .hex units ((0 * 16 + 0) * 16 + 0) 1⟩
        ([hexDigit (code / 16), hexDigit (code % 16)] ++ rest) :=
      scan_of_step (step_hex (by decide))
    _ = scan ⟨before, .hex units (code / 16) 0⟩ ([hexDigit (code % 16)] ++ rest) :=
      scan_of_step (by rw [step_hex hhigh, hcode])
    _ = scan ⟨before, .text (.escaped code :: units)⟩ rest :=
      scan_of_step (by rw [step_hex_last hlow, hjoin])

theorem step_plain (hquote : c ≠ '"') (hback : c ≠ '\\') (hcontrol : ¬ c.toNat < 0x20) :
    step ⟨before, .text units⟩ (some c) = some ⟨before, .text (.char c :: units)⟩ := by
  simp only [step, if_neg hquote, if_neg hback, if_neg hcontrol]

/-- Inside a string, the written form of a character is one unit. -/
theorem scan_escapedChar (before : List Token) (units : List Unit16) (c : Char)
    (rest : List Char) :
    ∃ unit, UnitOf c unit ∧
      scan ⟨before, .text units⟩ (escapedChar c ++ rest) =
        scan ⟨before, .text (unit :: units)⟩ rest := by
  rw [escapedChar]
  split_ifs with hquote hback hb hf hn hr ht hcontrol
  · exact ⟨.char c, Or.inl rfl, by rw [hquote]; rfl⟩
  · exact ⟨.char c, Or.inl rfl, by rw [hback]; rfl⟩
  · exact ⟨.char c, Or.inl rfl, by rw [hb]; rfl⟩
  · exact ⟨.char c, Or.inl rfl, by rw [hf]; rfl⟩
  · exact ⟨.char c, Or.inl rfl, by rw [hn]; rfl⟩
  · exact ⟨.char c, Or.inl rfl, by rw [hr]; rfl⟩
  · exact ⟨.char c, Or.inl rfl, by rw [ht]; rfl⟩
  · exact ⟨.escaped c.toNat, Or.inr ⟨rfl, hcontrol⟩, scan_control hcontrol⟩
  · exact ⟨.char c, Or.inl rfl, scan_of_step (step_plain hquote hback hcontrol)⟩

theorem scan_flatMap_escapedChar (before : List Token) (units : List Unit16)
    (chars rest : List Char) :
    ∃ written, List.Forall₂ UnitOf chars written ∧
      scan ⟨before, .text units⟩ (chars.flatMap escapedChar ++ rest) =
        scan ⟨before, .text (written.reverse ++ units)⟩ rest := by
  induction chars generalizing units with
  | nil => exact ⟨[], .nil, rfl⟩
  | cons c chars ih =>
    obtain ⟨unit, hunit, hscan⟩ :=
      scan_escapedChar before units c (chars.flatMap escapedChar ++ rest)
    obtain ⟨written, hwritten, hrest⟩ := ih (unit :: units)
    refine ⟨unit :: written, .cons hunit hwritten, ?_⟩
    rw [List.flatMap_cons, List.append_assoc, hscan, hrest, List.reverse_cons,
      List.append_assoc, List.singleton_append]

/-- A written string is its token, whatever the text goes on with. -/
theorem scan_quoted (value : String) :
    scan ⟨before, .between⟩ (quoted value ++ rest) =
      scan ⟨.text (some value) :: before, .between⟩ rest := by
  obtain ⟨written, hwritten, hscan⟩ :=
    scan_flatMap_escapedChar before [] value.toList ('"' :: rest)
  have hended : ended written.reverse = .text (some value) := by
    rw [ended, List.reverse_reverse, joinUnits_of_forall₂ hwritten, Option.map_some,
      String.ofList_toList]
  calc
    _ = scan ⟨before, .text []⟩ (value.toList.flatMap escapedChar ++ '"' :: rest) := by
      rw [quoted, List.append_assoc]
      rfl
    _ = scan ⟨before, .text written.reverse⟩ ('"' :: rest) := by
      rw [hscan, List.append_nil]
    _ = scan ⟨.text (some value) :: before, .between⟩ rest := by
      rw [← hended]
      rfl

end Scan

/-! ## Parts of a text -/

/-- Up to the character, the text is read as the tokens. -/
def ReadsBefore (stop : Char) (text : List Char) (tokens : List Token) : Prop :=
  ∀ before rest, Scan.scan ⟨before, .between⟩ (text ++ stop :: rest) =
    Scan.scan ⟨tokens.reverse ++ before, .between⟩ (stop :: rest)

/-- Wherever a token may begin, the character is a token of its own. -/
def IsToken (c : Char) (token : Token) : Prop :=
  ∀ before, Scan.step ⟨before, .between⟩ (some c) = some ⟨token :: before, .between⟩

section Parts

variable {text more : List Char} {tokens others : List Token} {c stop : Char} {token : Token}

theorem delimited_nil : Scan.Delimited [] :=
  fun _ h => nomatch h

theorem delimited_cons (h : isWordChar c = false) : Scan.Delimited (c :: text) := by
  intro d hd
  rw [← Option.some_inj.mp hd, h]

theorem Reads.cons (hc : IsToken c token) (h : Reads text tokens) :
    Reads (c :: text) (token :: tokens) := by
  intro before rest hrest
  rw [List.cons_append, Scan.scan_cons, hc before, Option.bind_some, h _ _ hrest,
    List.reverse_cons, List.append_assoc, List.singleton_append]

theorem Reads.quoted_append (key : String) (h : Reads text tokens) :
    Reads (quoted key ++ text) (.text (some key) :: tokens) := by
  intro before rest hrest
  rw [List.append_assoc, Scan.scan_quoted, h _ _ hrest, List.reverse_cons, List.append_assoc,
    List.singleton_append]

/-- What is read in any case is read before a part that does not go on with a word. -/
theorem Reads.append (h : Reads text tokens) (hmore : ReadsBefore stop more others)
    (hdelimited : ∀ rest, Scan.Delimited (more ++ stop :: rest)) :
    ReadsBefore stop (text ++ more) (tokens ++ others) := by
  intro before rest
  rw [List.append_assoc, h _ _ (hdelimited rest), hmore, List.reverse_append, List.append_assoc]

theorem readsBefore_nil (stop : Char) : ReadsBefore stop [] [] :=
  fun _ _ => rfl

/-- A part between brackets is read, whatever follows the brackets. -/
theorem ReadsBefore.enclosed {first last : Token} (hc : IsToken c first)
    (hstop : IsToken stop last) (h : ReadsBefore stop text tokens) :
    Reads (c :: text ++ [stop]) (first :: tokens ++ [last]) := by
  intro before rest _
  calc
    _ = Scan.scan ⟨first :: before, .between⟩ (text ++ stop :: rest) := by
      rw [List.cons_append, List.cons_append, Scan.scan_cons, hc before, Option.bind_some,
        List.append_assoc, List.singleton_append]
    _ = Scan.scan ⟨last :: (tokens.reverse ++ first :: before), .between⟩ rest := by
      rw [h, Scan.scan_cons, hstop, Option.bind_some]
    _ = _ := by
      simp

end Parts

/-! ## Trees -/

theorem delimited_charsOfItems (xs : List Json) (rest : List Char) :
    Scan.Delimited (charsOfItems xs ++ ']' :: rest) := by
  rcases xs with _ | ⟨x, xs⟩
  · exact delimited_cons (by decide)
  · exact delimited_cons (by decide)

theorem delimited_charsOfMembers (ms : List (String × Json)) (rest : List Char) :
    Scan.Delimited (charsOfMembers ms ++ '\x7d' :: rest) := by
  rcases ms with _ | ⟨⟨k, x⟩, ms⟩
  · exact delimited_cons (by decide)
  · exact delimited_cons (by decide)

mutual

/-- A written tree is read as its tokens. -/
theorem reads_chars : (j : Json) → j.isExact = true → Reads j.chars j.tokens
  | .null, _ => reads_word rfl nofun (List.all_eq_true.mp rfl)
  | .bool true, _ => reads_word rfl nofun (List.all_eq_true.mp rfl)
  | .bool false, _ => reads_word rfl nofun (List.all_eq_true.mp rfl)
  | .int value, h => by
    obtain ⟨hlow, hhigh⟩ := isExactLeaf_int.mp h
    exact reads_word (word?_integerChars hlow hhigh) (integerChars_ne_nil value)
      fun _ => isWordChar_of_mem_integerChars
  | .string text, _ => fun _ _ _ => Scan.scan_quoted text
  | .array [], _ => (readsBefore_nil ']').enclosed (fun _ => rfl) fun _ => rfl
  | .array (x :: xs), h => by
    obtain ⟨hx, hxs⟩ := (Bool.and_eq_true ..).mp h
    have hitems := (reads_chars x hx).append (readsBefore_charsOfItems xs hxs)
      (delimited_charsOfItems xs)
    rw [chars, tokens]
    exact hitems.enclosed (fun _ => rfl) fun _ => rfl
  | .object [], _ => (readsBefore_nil '\x7d').enclosed (fun _ => rfl) fun _ => rfl
  | .object ((k, x) :: ms), h => by
    obtain ⟨hx, hms⟩ := (Bool.and_eq_true ..).mp h
    have hmember := ((reads_chars x hx).cons (c := ':') fun _ => rfl).quoted_append k
    have hmembers := hmember.append (readsBefore_charsOfMembers ms hms)
      (delimited_charsOfMembers ms)
    rw [chars, tokens]
    exact hmembers.enclosed (fun _ => rfl) fun _ => rfl

/-- Before the end of an array the items after the first are read as their tokens. -/
theorem readsBefore_charsOfItems : (xs : List Json) →
    everyLeafOfItems isExactLeaf xs = true →
      ReadsBefore ']' (charsOfItems xs) (tokensOfItems xs)
  | [], _ => readsBefore_nil ']'
  | x :: xs, h => by
    obtain ⟨hx, hxs⟩ := (Bool.and_eq_true ..).mp h
    have hitem := (reads_chars x hx).cons (c := ',') fun _ => rfl
    rw [charsOfItems, tokensOfItems]
    exact hitem.append (readsBefore_charsOfItems xs hxs) (delimited_charsOfItems xs)

theorem readsBefore_charsOfMembers : (ms : List (String × Json)) →
    everyLeafOfMembers isExactLeaf ms = true →
      ReadsBefore '\x7d' (charsOfMembers ms) (tokensOfMembers ms)
  | [], _ => readsBefore_nil '\x7d'
  | (k, x) :: ms, h => by
    obtain ⟨hx, hms⟩ := (Bool.and_eq_true ..).mp h
    have hvalue := (reads_chars x hx).cons (c := ':') fun _ => rfl
    have hmember := (hvalue.quoted_append k).cons (c := ',') fun _ => rfl
    rw [charsOfMembers, tokensOfMembers]
    exact hmember.append (readsBefore_charsOfMembers ms hms) (delimited_charsOfMembers ms)

end

/-- The tokens of a written tree are found in its text. -/
theorem tokens?_chars {j : Json} (h : j.isExact = true) :
    tokens? (j.chars.map some) = some j.tokens := by
  have hreads := reads_chars j h [] [] delimited_nil
  rw [List.append_nil, List.append_nil] at hreads
  calc
    _ = Scan.scan ⟨[], .between⟩ j.chars := rfl
    _ = Scan.scan ⟨j.tokens.reverse, .between⟩ [] := hreads
    _ = some j.tokens := congrArg some (List.reverse_reverse _)

end Json
end CallImpact
