import CallImpact.Limits.Environment
import Mathlib.Data.List.Basic
import Mathlib.Data.List.TakeWhile

/-!
# What a setting of the environment does

A setting says a number if, between blanks, it is one plus sign or none and then at least one
decimal digit (`SaysNumber`).  Such a setting replaces its limit, and every other one leaves it:
a trimmed text is not trimmed any further, so it does not matter that a setting is trimmed once
before it is compared with the words for no limit and once more before it is read as a number,
and none of these words is a number.
-/

namespace CallImpact

namespace Text

/-! ## Trimming -/

/-- No blank stands at an end of the text. -/
def IsTrimmed (text : List Char) : Prop :=
  (∀ c ∈ text.head?, isBlank c = false) ∧ ∀ c ∈ text.getLast?, isBlank c = false

variable {before core behind text : List Char}

theorem dropWhile_isBlank_append (hbefore : ∀ c ∈ before, isBlank c = true)
    (h : ∀ c ∈ text.head?, isBlank c = false) :
    (before ++ text).dropWhile isBlank = text := by
  rw [List.dropWhile_append_of_pos hbefore]
  cases text with
  | nil => rfl
  | cons c rest => exact List.dropWhile_cons_of_neg (Bool.eq_false_iff.mp (h c rfl))

theorem isBlank_of_mem_head?_dropWhile {c : Char}
    (h : c ∈ (text.dropWhile isBlank).head?) : isBlank c = false := by
  have hhead := List.head?_dropWhile_not isBlank text
  rw [Option.mem_def.mp h] at hhead
  exact hhead

/-- What stands between blanks and is trimmed is what trimming leaves. -/
theorem trimBlank_append (hbefore : ∀ c ∈ before, isBlank c = true) (hcore : IsTrimmed core)
    (hbehind : ∀ c ∈ behind, isBlank c = true) :
    trimBlank (before ++ core ++ behind) = core := by
  have hreverse : ∀ c ∈ behind.reverse, isBlank c = true :=
    fun c hc => hbehind c (List.mem_reverse.mp hc)
  have hlast : ∀ c ∈ core.reverse.head?, isBlank c = false := by
    rw [List.head?_reverse]
    exact hcore.2
  rcases eq_or_ne core [] with rfl | hne
  · have hall : ∀ c ∈ before ++ [] ++ behind, isBlank c = true := by
      simpa [or_imp, forall_and] using And.intro hbefore hbehind
    rw [trimBlank, List.dropWhile_eq_nil_iff.mpr hall]
    rfl
  · have hfirst : ∀ c ∈ (core ++ behind).head?, isBlank c = false := by
      rw [List.head?_append_of_ne_nil _ hne]
      exact hcore.1
    rw [trimBlank, List.append_assoc, dropWhile_isBlank_append hbefore hfirst,
      List.reverse_append, dropWhile_isBlank_append hreverse hlast, List.reverse_reverse]

/-- Trimming drops blanks only, and all of them at both ends. -/
theorem exists_eq_append_trimBlank (text : List Char) :
    ∃ before behind, text = before ++ trimBlank text ++ behind ∧
      (∀ c ∈ before, isBlank c = true) ∧ (∀ c ∈ behind, isBlank c = true) ∧
      IsTrimmed (trimBlank text) := by
  let rest := text.dropWhile isBlank
  have hrest : rest = trimBlank text ++ (rest.reverse.takeWhile isBlank).reverse := by
    rw [trimBlank, ← List.reverse_append, List.takeWhile_append_dropWhile, List.reverse_reverse]
  refine ⟨text.takeWhile isBlank, (rest.reverse.takeWhile isBlank).reverse, ?_, ?_, ?_, ?_, ?_⟩
  · rw [List.append_assoc, ← hrest, List.takeWhile_append_dropWhile]
  · exact fun c hc => List.mem_takeWhile_imp hc
  · exact fun c hc => List.mem_takeWhile_imp (List.mem_reverse.mp hc)
  · intro c hc
    have hhead : c ∈ rest.head? := by
      rw [hrest, List.head?_append, Option.mem_def.mp hc]
      rfl
    exact isBlank_of_mem_head?_dropWhile hhead
  · intro c hc
    rw [trimBlank, List.getLast?_reverse] at hc
    exact isBlank_of_mem_head?_dropWhile hc

theorem trimBlank_trimBlank (text : List Char) : trimBlank (trimBlank text) = trimBlank text := by
  obtain ⟨_, _, _, _, _, htrimmed⟩ := exists_eq_append_trimBlank text
  have h : trimBlank ([] ++ trimBlank text ++ []) = trimBlank text :=
    trimBlank_append nofun htrimmed nofun
  rwa [List.nil_append, List.append_nil] at h

theorem isBlank_of_isDigit {c : Char} (h : c.isDigit = true) : isBlank c = false := by
  have hrange : 48 ≤ c.toNat ∧ c.toNat ≤ 57 := by
    simp only [Char.isDigit, Bool.and_eq_true, decide_eq_true_eq] at h
    exact h
  simp only [isBlank, Bool.or_eq_false_iff, Bool.and_eq_false_iff, decide_eq_false_iff_not,
    beq_eq_false_iff_ne]
  omega

theorem ofDigits?_eq_some_iff {n : Nat} :
    ofDigits? text = some n ↔
      text ≠ [] ∧ (∀ c ∈ text, c.isDigit = true) ∧ Nat.ofDigitChars 10 text 0 = n := by
  rw [ofDigits?, ← List.all_eq_true]
  split
  case isTrue h => simp [h]
  case isFalse h =>
    constructor
    · intro hnone
      cases hnone
    · intro hdigits
      exact absurd ⟨hdigits.1, hdigits.2.1⟩ h

end Text

/-! ## Numbers -/

/-- Between blanks the text is one plus sign or none, and then at least one decimal digit; the
digits have the value `n`. -/
def WritesNumber (text : List Char) (n : Nat) : Prop :=
  ∃ before sign digits behind, text = before ++ (sign ++ digits) ++ behind ∧
    (∀ c ∈ before, Text.isBlank c = true) ∧ (∀ c ∈ behind, Text.isBlank c = true) ∧
    (sign = [] ∨ sign = ['+']) ∧ digits ≠ [] ∧ (∀ c ∈ digits, c.isDigit = true) ∧
    Nat.ofDigitChars 10 digits 0 = n

/-- The setting is there, and its text writes a number that a word of 64 bits holds. -/
def SaysNumber (setting : Option String) (n : UInt64) : Prop :=
  ∃ text ∈ setting, WritesNumber text.toList n.toNat

namespace Limits

open Text

variable {text sign digits : List Char} {n : UInt64}

theorem isTrimmed_number (hsign : sign = [] ∨ sign = ['+']) (hne : digits ≠ [])
    (hdigits : ∀ c ∈ digits, c.isDigit = true) : IsTrimmed (sign ++ digits) := by
  constructor
  · intro c hc
    rcases hsign with rfl | rfl
    · exact isBlank_of_isDigit (hdigits c (List.mem_of_head? hc))
    · rw [← Option.some_inj.mp hc]
      decide
  · intro c hc
    rw [List.getLast?_append_of_ne_nil _ hne] at hc
    exact isBlank_of_isDigit (hdigits c (List.mem_of_getLast? hc))

theorem withoutPlus_number (hsign : sign = [] ∨ sign = ['+'])
    (hdigits : ∀ c ∈ digits, c.isDigit = true) : withoutPlus (sign ++ digits) = digits := by
  rcases hsign with rfl | rfl
  · rw [List.nil_append, withoutPlus]
    rintro rest rfl
    exact absurd (hdigits '+' (List.mem_cons_self ..)) (by decide)
  · rfl

theorem exists_eq_sign_append (text : List Char) :
    ∃ sign, (sign = [] ∨ sign = ['+']) ∧ text = sign ++ withoutPlus text := by
  rw [withoutPlus.eq_def]
  split
  · exact ⟨['+'], Or.inr rfl, rfl⟩
  · exact ⟨[], Or.inl rfl, rfl⟩

theorem number?_eq_some_iff : number? text = some n ↔ WritesNumber text n.toNat := by
  constructor
  · intro h
    obtain ⟨value, hvalue, hword⟩ := Option.bind_eq_some_iff.mp h
    obtain ⟨hne, hdigits, hvalue⟩ := ofDigits?_eq_some_iff.mp hvalue
    obtain ⟨before, behind, htext, hbefore, hbehind, -⟩ := exists_eq_append_trimBlank text
    obtain ⟨sign, hsign, htrimmed⟩ := exists_eq_sign_append (trimBlank text)
    split at hword
    case isTrue hlt =>
      refine ⟨before, sign, _, behind, ?_, hbefore, hbehind, hsign, hne, hdigits, ?_⟩
      · rw [← htrimmed]
        exact htext
      · rw [hvalue, ← Option.some_inj.mp hword, UInt64.toNat_ofNat_of_lt' hlt]
    case isFalse => exact absurd hword nofun
  · rintro ⟨before, sign, digits, behind, rfl, hbefore, hbehind, hsign, hne, hdigits, hvalue⟩
    have hread : ofDigits? digits = some n.toNat :=
      ofDigits?_eq_some_iff.mpr ⟨hne, hdigits, hvalue⟩
    rw [number?, trimBlank_append hbefore (isTrimmed_number hsign hne hdigits) hbehind,
      withoutPlus_number hsign hdigits, hread]
    change (if n.toNat < UInt64.size then some (UInt64.ofNat n.toNat) else none) = some n
    rw [if_pos n.toNat_lt_size, UInt64.ofNat_toNat]

theorem number?_trimBlank (text : List Char) : number? (trimBlank text) = number? text := by
  rw [number?, number?, trimBlank_trimBlank]

/-! ## Settings -/

/-- What is left of a number without the blanks around it ends with a digit. -/
theorem exists_mem_getLast?_trimBlank {value : Nat} (h : WritesNumber text value) :
    ∃ c ∈ (trimBlank text).getLast?, c.isDigit = true := by
  obtain ⟨before, sign, digits, behind, rfl, hbefore, hbehind, hsign, hne, hdigits, -⟩ := h
  rw [trimBlank_append hbefore (isTrimmed_number hsign hne hdigits) hbehind,
    List.getLast?_append_of_ne_nil _ hne]
  exact ⟨digits.getLast hne, List.getLast?_eq_some_getLast hne,
    hdigits _ (List.getLast_mem hne)⟩

/-- No word for an unlimited number ends with a digit. -/
theorem isDigit_of_mem_noLimit :
    ∀ word ∈ "" :: noLimit, word.toList.getLast?.any Char.isDigit = false := by
  decide

variable {words : List String} {setting : Option String}

/-- Words that do not end with a digit keep no number from being read. -/
theorem setting?_eq_some_iff {text : String}
    (hwords : ∀ word ∈ "" :: words, word.toList.getLast?.any Char.isDigit = false) :
    setting? words text = some n ↔ WritesNumber text.toList n.toNat := by
  rw [setting?]
  split
  case isTrue hmem =>
    refine iff_of_false nofun fun hwrites => ?_
    obtain ⟨c, hc, hdigit⟩ := exists_mem_getLast?_trimBlank hwrites
    have hlast := hwords _ hmem
    rw [String.toList_ofList, Option.mem_def.mp hc, Option.any_some, hdigit] at hlast
    exact absurd hlast.symm Bool.false_ne_true
  case isFalse => rw [number?_trimBlank, number?_eq_some_iff]

theorem bind_setting?_eq_some_iff
    (hwords : ∀ word ∈ "" :: words, word.toList.getLast?.any Char.isDigit = false) :
    setting.bind (setting? words) = some n ↔ SaysNumber setting n := by
  rw [Option.bind_eq_some_iff]
  exact exists_congr fun text => and_congr_right fun _ => setting?_eq_some_iff hwords

variable (l : Limits) (minimum maximum : Option String)

theorem minNameLength_override_eq_iff :
    (override l minimum maximum).minNameLength = n ↔
      SaysNumber minimum n ∨ (¬ ∃ m, SaysNumber minimum m) ∧ n = l.minNameLength := by
  have hread : ∀ m, minimum.bind (setting? []) = some m ↔ SaysNumber minimum m :=
    fun m => bind_setting?_eq_some_iff (by decide)
  simp only [← hread, override]
  cases minimum.bind (setting? []) with
  | none => simp [eq_comm]
  | some m => simp

theorem maxReferences_override_eq_iff {limit : Option UInt64} :
    (override l minimum maximum).maxReferences = limit ↔
      (∃ n, SaysNumber maximum n ∧ limit = some n) ∨
        (¬ ∃ m, SaysNumber maximum m) ∧ limit = l.maxReferences := by
  have hread : ∀ m, maximum.bind (setting? noLimit) = some m ↔ SaysNumber maximum m :=
    fun m => bind_setting?_eq_some_iff isDigit_of_mem_noLimit
  simp only [← hread, override]
  cases maximum.bind (setting? noLimit) with
  | none => simp [eq_comm]
  | some m => simp [eq_comm]

/-- Each limit is the number that its own setting says, and as it was if that setting says none.
The default limits are refused under settings exactly if the second one says zero. -/
theorem override_ofSettings_iff :
    (∀ (l : Limits) (minimum maximum : Option String),
      (∀ n, (override l minimum maximum).minNameLength = n ↔
        SaysNumber minimum n ∨ (¬ ∃ m, SaysNumber minimum m) ∧ n = l.minNameLength) ∧
      ∀ limit, (override l minimum maximum).maxReferences = limit ↔
        (∃ n, SaysNumber maximum n ∧ limit = some n) ∨
          (¬ ∃ m, SaysNumber maximum m) ∧ limit = l.maxReferences) ∧
    ∀ minimum maximum : Option String,
      (∀ e, ofSettings minimum maximum = .error e ↔
        SaysNumber maximum 0 ∧ e = .invalidLimits .zeroReferences) ∧
      ∀ l, ofSettings minimum maximum = .ok l ↔
        ¬ SaysNumber maximum 0 ∧ l = override {} minimum maximum := by
  refine ⟨fun l minimum maximum => ⟨fun n => minNameLength_override_eq_iff l minimum maximum,
    fun limit => maxReferences_override_eq_iff l minimum maximum⟩, fun minimum maximum => ?_⟩
  have hzero : (override {} minimum maximum).maxReferences = some 0 ↔ SaysNumber maximum 0 := by
    rw [maxReferences_override_eq_iff]
    simp
  rw [ofSettings, checked, ← hzero]
  split
  case isTrue h => simp [h, eq_comm]
  case isFalse h => simp [h, eq_comm]

/-- Leading zeros do not make a number too large, and one that is too large changes nothing. -/
example : override ⟨4, some 1024⟩ (some "\u00a0+000000000000000000000042\n")
    (some "18446744073709551616") = ⟨42, some 1024⟩ := by
  decide

end Limits
end CallImpact
