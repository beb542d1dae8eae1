import CallImpact.Proofs.Json.Scanning
import CallImpact.Toml.Reader
import Mathlib.Algebra.GroupWithZero.Nat

/-!
# TOML documents of numbers

A document with one line `key = number` for each of some keys is read as the table of these keys
and numbers.  The keys are bare and do not repeat, and each number fits into an integer of 64 bits
with a sign; a line break may stand behind the last line.

What is read of a line is stated for a line that goes on somehow, as far as what goes on does not
extend the part that is read.
-/

namespace CallImpact
namespace Toml

variable {n : Nat} {text rest : List Char}

/-! ## Numbers -/

theorem isDigit_of_mem_digits {c : Char} (h : c ∈ Text.digits n) : c.isDigit = true :=
  List.all_eq_true.mp (Text.digits_spec n).2 c h

theorem exists_digits_eq_cons (n : Nat) :
    ∃ c cs, Text.digits n = c :: cs ∧ c.isDigit = true := by
  obtain ⟨c, cs, h⟩ := List.exists_cons_of_ne_nil (Text.digits_spec n).1
  exact ⟨c, cs, h, isDigit_of_mem_digits (h ▸ List.mem_cons_self ..)⟩

theorem digitsFrom?_of_isDigit (after : Bool) (hne : after = true ∨ text ≠ [])
    (h : ∀ c ∈ text, c.isDigit = true) : digitsFrom? Char.isDigit after text = some text := by
  induction text generalizing after with
  | nil =>
    rw [digitsFrom?, if_pos (hne.resolve_right (fun h => h rfl))]
  | cons c rest ih =>
    obtain ⟨hc, hrest⟩ := List.forall_mem_cons.mp h
    rw [digitsFrom?, if_pos hc, ih true (Or.inl rfl) hrest, Option.map_some]

/-- Written digits start with a zero only if they are one. -/
theorem whole?_digits (n : Nat) : whole? (Text.digits n) = some (Text.digits n) := by
  have hleading : ¬ ((Text.digits n).head? = some '0' ∧ Text.digits n ≠ ['0']) := by
    rintro ⟨hzero, hne⟩
    by_cases hlarge : 10 ≤ n
    · exact Json.head?_digits_ne_zero hlarge hzero
    · rw [Text.digits, Nat.toDigits_of_lt_base (by omega)] at hzero hne
      exact hne (congrArg (· :: []) (Option.some_inj.mp hzero))
  rw [whole?, if_neg hleading]
  exact digitsFrom?_of_isDigit false (Or.inr (Text.digits_spec n).1)
    fun _ => isDigit_of_mem_digits

theorem ne_of_isDigit {c mark : Char} (h : c.isDigit = true) (hmark : mark.isDigit = false) :
    c ≠ mark := by
  rintro rfl
  exact Bool.false_ne_true (hmark.symm.trans h)

theorem splitSign_of_isDigit {c : Char} (h : c.isDigit = true) :
    splitSign (c :: text) = (false, c :: text) := by
  rw [splitSign]
  · rintro rest heq
    exact ne_of_isDigit h (by decide) (List.cons.inj heq).1
  · rintro rest heq
    exact ne_of_isDigit h (by decide) (List.cons.inj heq).1

/-- A number without a sign is not written in another base. -/
theorem integer?_digits (h : n < 2 ^ 63) : integer? (Text.digits n) = some (.integer n) := by
  obtain ⟨c, cs, hdigits, hc⟩ := exists_digits_eq_cons n
  have hvalue : Nat.ofDigitChars 10 (Text.digits n) 0 = n :=
    Nat.ofDigitChars_toDigits (by decide) (by decide)
  have hword : signedWord? false n = some (.integer n) := by
    rw [signedWord?, if_neg Bool.false_ne_true, if_pos (by rwa [Nat.shiftLeft_eq, Nat.one_mul])]
  have hbase : ∀ mark : Char, mark.isDigit = false →
      ∀ rest, Text.digits n = '0' :: mark :: rest → False := by
    intro mark hmark rest heq
    have hmem : mark ∈ Text.digits n := by simp [heq]
    exact ne_of_isDigit (isDigit_of_mem_digits hmem) hmark rfl
  rw [integer?]
  · rw [hdigits, splitSign_of_isDigit hc, ← hdigits]
    simp only [whole?_digits, Option.bind_eq_bind, Option.bind_some, hvalue, hword]
  · exact hbase 'x' (by decide)
  · exact hbase 'o' (by decide)
  · exact hbase 'b' (by decide)

/-! ## Words -/

/-- Behind digits that are read there are only digits. -/
theorem ne_cons_of_fixedDigits? {count value : Nat} {mark : Char}
    (htext : ∀ c ∈ text, c.isDigit = true) (h : fixedDigits? count text = some (value, rest))
    (hmark : mark.isDigit = false) : ∀ more, rest ≠ mark :: more := by
  simp only [fixedDigits?] at h
  split at h
  · rw [← ((Prod.mk.injEq ..).mp (Option.some_inj.mp h)).2]
    intro more heq
    have hmem : mark ∈ text.drop count := by simp [heq]
    exact ne_of_isDigit (htext mark (List.mem_of_mem_drop hmem)) hmark rfl
  · exact absurd h nofun

/-- Digits alone are no date, since dashes stand in a date. -/
theorem afterDate?_of_isDigit (h : ∀ c ∈ text, c.isDigit = true) : afterDate? text = none := by
  rw [afterDate?]
  cases hyear : fixedDigits? 4 text with
  | none => rfl
  | some found =>
    obtain ⟨year, rest⟩ := found
    have hrest : ∀ more, rest ≠ '-' :: more := ne_cons_of_fixedDigits? h hyear (by decide)
    simp only [Option.bind_eq_bind, Option.bind_some]

/-- Digits alone are no time of day, since colons stand in one. -/
theorem afterMinutes?_of_isDigit (h : ∀ c ∈ text, c.isDigit = true) :
    afterMinutes? text = none := by
  rw [afterMinutes?]
  cases hhour : fixedDigits? 2 text with
  | none => rfl
  | some found =>
    obtain ⟨hour, rest⟩ := found
    have hrest : ∀ more, rest ≠ ':' :: more := ne_cons_of_fixedDigits? h hhour (by decide)
    simp only [Option.bind_eq_bind, Option.bind_some]

theorem isDateTime_of_isDigit (h : ∀ c ∈ text, c.isDigit = true) : isDateTime text = false := by
  have htime : afterTime? text = none := by
    rw [afterTime?, afterMinutes?_of_isDigit h]
    rfl
  rw [isDateTime, isDate, afterDate?_of_isDigit h, htime]
  rfl

theorem word?_digits (h : n < 2 ^ 63) : word? (Text.digits n) = some (.integer n) := by
  have hletter : ∀ c : Char, c.isDigit = false → c ∉ Text.digits n :=
    fun c hc hmem => ne_of_isDigit (isDigit_of_mem_digits hmem) hc rfl
  have hdate : ¬ isDateTime (Text.digits n) = true := by
    rw [isDateTime_of_isDigit fun _ => isDigit_of_mem_digits]
    exact Bool.false_ne_true
  rw [word?, if_neg, if_neg, if_neg hdate, integer?_digits h, Option.some_or]
  · intro heq
    exact hletter 'e' (by decide) (heq ▸ by decide)
  · intro heq
    exact hletter 'e' (by decide) (heq ▸ by decide)

/-- The text does not go on with a part of a word or with a blank. -/
def EndsWord (text : List Char) : Prop :=
  ∀ c ∈ text.head?, isWordChar c = false ∧ c ≠ ' '

theorem isWordChar_of_isDigit {c : Char} (h : c.isDigit = true) : isWordChar c = true := by
  simp [isWordChar, Char.isAlphanum, h]

theorem scalar?_digits_append (h : n < 2 ^ 63) (hrest : EndsWord rest) :
    scalar? (Text.digits n ++ rest) = some (.integer n, rest) := by
  have hdigits : ∀ c ∈ Text.digits n, isWordChar c = true :=
    fun c hc => isWordChar_of_isDigit (isDigit_of_mem_digits hc)
  cases rest with
  | nil =>
    simp only [scalar?, List.append_nil, List.takeWhile_eq_self_iff.mpr hdigits,
      List.dropWhile_eq_nil_iff.mpr hdigits, word?_digits h]
    rfl
  | cons c rest =>
    obtain ⟨hc, hblank⟩ := hrest c rfl
    have htake : (Text.digits n ++ c :: rest).takeWhile isWordChar = Text.digits n := by
      rw [List.takeWhile_append_of_pos hdigits,
        List.takeWhile_cons_of_neg (Bool.eq_false_iff.mp hc), List.append_nil]
    have hdrop : (Text.digits n ++ c :: rest).dropWhile isWordChar = c :: rest := by
      rw [List.dropWhile_append_of_pos hdigits,
        List.dropWhile_cons_of_neg (Bool.eq_false_iff.mp hc)]
    simp only [scalar?, htake, hdrop, word?_digits h, Option.bind_eq_bind, Option.bind_some]
    split
    · rename_i heq
      exact absurd (List.cons.inj heq).1 hblank
    · rfl

/-- Digits are read as an integer inside any number of containers. -/
theorem value?_digits_append (h : n < 2 ^ 63) (hrest : EndsWord rest) :
    value? (Text.digits n ++ rest) = some (.integer n, rest) := by
  obtain ⟨c, cs, hdigits, hc⟩ := exists_digits_eq_cons n
  have hscalar := scalar?_digits_append h hrest
  rw [hdigits, List.cons_append] at hscalar ⊢
  have hopen : ∀ mark : Char, mark.isDigit = false →
      ∀ more, c :: (cs ++ rest) = mark :: more → False := by
    intro mark hmark more heq
    exact ne_of_isDigit hc hmark (List.cons.inj heq).1
  rw [value?, valueFrom?, List.head?_cons]
  · split
    · rename_i heq
      exact absurd (Option.some_inj.mp heq) (ne_of_isDigit hc (by decide))
    · rename_i heq
      exact absurd (Option.some_inj.mp heq) (ne_of_isDigit hc (by decide))
    · exact hscalar
  · exact hopen '[' (by decide)
  · exact hopen '\x7b' (by decide)

/-! ## Lines -/

/-- A key that is written without quotes. -/
def IsBareKey (key : String) : Prop :=
  key ≠ "" ∧ ∀ c ∈ key.toList, isKeyChar c = true

instance (key : String) : Decidable (IsBareKey key) :=
  decidable_of_iff (key ≠ "" ∧ key.toList.all isKeyChar = true) (and_congr_right' List.all_eq_true)

/-- The line of a key and its number. -/
def numberLine (field : String × Nat) : List Char :=
  field.1.toList ++ ' ' :: '=' :: ' ' :: Text.digits field.2

def numberStatement (field : String × Nat) : Statement :=
  .pair [] field.1 (.integer field.2)

variable {key : String} {field : String × Nat}

theorem exists_key_eq_cons (h : IsBareKey key) :
    ∃ c cs, key.toList = c :: cs ∧ isKeyChar c = true := by
  obtain ⟨c, cs, hkey⟩ := List.exists_cons_of_ne_nil (String.toList_eq_nil_iff.not.mpr h.1)
  exact ⟨c, cs, hkey, h.2 c (hkey ▸ List.mem_cons_self ..)⟩

theorem ne_of_isKeyChar {c mark : Char} (h : isKeyChar c = true) (hmark : isKeyChar mark = false) :
    c ≠ mark := by
  rintro rfl
  exact Bool.false_ne_true (hmark.symm.trans h)

theorem dropBlanks_of_ne {c : Char} (hblank : c ≠ ' ') (htab : c ≠ '\t') :
    dropBlanks (c :: rest) = c :: rest :=
  List.dropWhile_cons_of_neg (by simp [hblank, htab])

/-- A bare key is read up to the blank behind it. -/
theorem keyPart?_append (h : IsBareKey key) :
    keyPart? (key.toList ++ ' ' :: rest) = some (key, ' ' :: rest) := by
  obtain ⟨c, cs, hkey, hc⟩ := exists_key_eq_cons h
  have htake : (key.toList ++ ' ' :: rest).takeWhile isKeyChar = key.toList := by
    rw [List.takeWhile_append_of_pos h.2, List.takeWhile_cons_of_neg (by decide), List.append_nil]
  have hdrop : (key.toList ++ ' ' :: rest).dropWhile isKeyChar = ' ' :: rest := by
    rw [List.dropWhile_append_of_pos h.2, List.dropWhile_cons_of_neg (by decide)]
  have hopen : ∀ mark : Char, isKeyChar mark = false →
      ∀ more, key.toList ++ ' ' :: rest = mark :: more → False := by
    intro mark hmark more heq
    rw [hkey] at heq
    exact ne_of_isKeyChar hc hmark (List.cons.inj heq).1
  rw [keyPart?, htake, hdrop, if_neg, String.ofList_toList]
  · simp [hkey]
  · exact hopen '"' (by decide)
  · exact hopen '\x27' (by decide)

/-- The part of a line before its number is read as the key. -/
theorem key?_append (h : IsBareKey key) :
    key? (key.toList ++ ' ' :: '=' :: rest) = some ([], key, '=' :: rest) := by
  obtain ⟨c, cs, hkey, hc⟩ := exists_key_eq_cons h
  have hblanks : dropBlanks (key.toList ++ ' ' :: '=' :: rest) =
      key.toList ++ ' ' :: '=' :: rest := by
    rw [hkey]
    exact dropBlanks_of_ne (ne_of_isKeyChar hc (by decide)) (ne_of_isKeyChar hc (by decide))
  rw [key?, maxNesting, dottedKey?, hblanks, keyPart?_append h]
  rfl

theorem pair?_numberLine_append (hkey : IsBareKey field.1) (hlt : field.2 < 2 ^ 63)
    (hrest : EndsWord rest) :
    pair? (numberLine field ++ rest) = some (numberStatement field, rest) := by
  obtain ⟨c, cs, hdigits, hc⟩ := exists_digits_eq_cons field.2
  have hvalue : value? (dropBlanks (' ' :: (Text.digits field.2 ++ rest))) =
      some (.integer field.2, rest) := by
    have hblanks : dropBlanks (' ' :: (Text.digits field.2 ++ rest)) =
        Text.digits field.2 ++ rest := by
      rw [hdigits]
      exact dropBlanks_of_ne (ne_of_isDigit hc (by decide)) (ne_of_isDigit hc (by decide))
    rw [hblanks, value?_digits_append hlt hrest]
  rw [numberLine, List.append_assoc, pair?, List.cons_append, List.cons_append,
    key?_append hkey]
  simp only [Option.bind_eq_bind, Option.bind_some, List.cons_append, hvalue]
  rfl

theorem statement?_append (hkey : IsBareKey key) :
    statement? (key.toList ++ rest) = pair? (key.toList ++ rest) := by
  obtain ⟨c, cs, hcons, hc⟩ := exists_key_eq_cons hkey
  rw [hcons, List.cons_append, statement?]
  · rintro more heq
    exact ne_of_isKeyChar hc (by decide) (List.cons.inj heq).1
  · rintro more heq
    exact ne_of_isKeyChar hc (by decide) (List.cons.inj heq).1

/-- A line is over, and the lines behind it follow. -/
inductive EndsLine : List Char → List Char → Prop where
  | last : EndsLine [] []
  | next (lines : List Char) : EndsLine ('\n' :: lines) lines

theorem EndsLine.lineEnd? {lines : List Char} (h : EndsLine rest lines) :
    lineEnd? rest = some lines := by
  cases h with
  | last => rfl
  | next => rfl

theorem EndsLine.endsWord {lines : List Char} (h : EndsLine rest lines) : EndsWord rest := by
  cases h with
  | last => exact nofun
  | next =>
    intro c hc
    rw [← Option.some_inj.mp hc]
    decide

/-- A line that begins with a bare key is read as its statement. -/
theorem statementsFrom?_numberLine {lines : List Char} {fuel : Nat} {statements : List Statement}
    (hkey : IsBareKey field.1) (hlt : field.2 < 2 ^ 63) (hrest : EndsLine rest lines) :
    statementsFrom? (fuel + 1) statements (numberLine field ++ rest) =
      statementsFrom? fuel (numberStatement field :: statements) lines := by
  obtain ⟨c, cs, hcons, hc⟩ := exists_key_eq_cons hkey
  have hline : numberLine field ++ rest =
      c :: (cs ++ ' ' :: '=' :: ' ' :: (Text.digits field.2 ++ rest)) := by
    simp [numberLine, hcons]
  have hblanks : dropBlanks (numberLine field ++ rest) = numberLine field ++ rest := by
    rw [hline]
    exact dropBlanks_of_ne (ne_of_isKeyChar hc (by decide)) (ne_of_isKeyChar hc (by decide))
  have hstatement : statement? (numberLine field ++ rest) =
      some (numberStatement field, rest) := by
    rw [← pair?_numberLine_append hkey hlt hrest.endsWord, numberLine, List.append_assoc,
      statement?_append hkey]
  have hopen : ∀ mark : Char, isKeyChar mark = false →
      ∀ more, numberLine field ++ rest ≠ mark :: more := by
    intro mark hmark more heq
    rw [hline] at heq
    exact ne_of_isKeyChar hc hmark (List.cons.inj heq).1
  rw [statementsFrom?, hblanks]
  split
  case h_1 heq => exact absurd (hline.symm.trans heq) nofun
  case h_2 heq => exact absurd heq (hopen '\n' (by decide) _)
  case h_3 heq => exact absurd heq (hopen '#' (by decide) _)
  case h_4 =>
    simp only [hstatement, hrest.lineEnd?, Option.bind_eq_bind, Option.bind_some]

/-! ## Documents -/

/-- One line for each of the fields, with line breaks between them. -/
def numberLines (fields : List (String × Nat)) : List Char :=
  ['\n'].intercalate (fields.map numberLine)

/-- The fields have bare keys that do not repeat, and numbers that fit into an integer. -/
structure AreNumberFields (fields : List (String × Nat)) : Prop where
  isBareKey : ∀ field ∈ fields, IsBareKey field.1
  lt : ∀ field ∈ fields, field.2 < 2 ^ 63
  nodup : (fields.map Prod.fst).Nodup

variable {fields : List (String × Nat)} {last : List Char}

theorem numberLines_singleton (field : String × Nat) :
    numberLines [field] = numberLine field :=
  List.intercalate_singleton

theorem numberLines_cons_cons (first second : String × Nat) (more : List (String × Nat)) :
    numberLines (first :: second :: more) =
      numberLine first ++ '\n' :: numberLines (second :: more) := by
  rw [numberLines, List.map_cons, List.map_cons, List.intercalate_cons_cons, List.append_assoc]
  rfl

/-- The lines begin with the first key. -/
theorem exists_numberLines_eq_append (first : String × Nat) (more : List (String × Nat)) :
    ∃ rest, numberLines (first :: more) = first.1.toList ++ rest := by
  cases more with
  | nil => exact ⟨_, numberLines_singleton first⟩
  | cons second more =>
    rw [numberLines_cons_cons, numberLine, List.append_assoc]
    exact ⟨_, rfl⟩

/-- The lines of a document are no more than its characters. -/
theorem length_le_length_numberLines (fields : List (String × Nat)) :
    fields.length ≤ (numberLines fields).length := by
  induction fields with
  | nil => exact Nat.zero_le _
  | cons first more ih =>
    cases more with
    | nil =>
      simp only [numberLines, numberLine, List.map_cons, List.map_nil,
        List.intercalate_singleton, List.length_append, List.length_cons, List.length_nil]
      omega
    | cons second more =>
      rw [numberLines_cons_cons, List.length_append, List.length_cons (a := '\n'),
        List.length_cons]
      omega

/-- The lines of a document are read as their statements. -/
theorem statementsFrom?_numberLines (hlast : last = [] ∨ last = ['\n'])
    (hkeys : ∀ field ∈ fields, IsBareKey field.1) (hlt : ∀ field ∈ fields, field.2 < 2 ^ 63)
    (fuel : Nat) (hfuel : fields.length + last.length ≤ fuel) (statements : List Statement) :
    statementsFrom? (fuel + 1) statements (numberLines fields ++ last) =
      some (statements.reverse ++ fields.map numberStatement) := by
  have hend : EndsLine last [] := by
    rcases hlast with rfl | rfl
    · exact .last
    · exact .next []
  induction fields generalizing fuel statements with
  | nil =>
    rw [List.map_nil, List.append_nil]
    rcases hlast with rfl | rfl
    · rfl
    · obtain ⟨fuel, rfl⟩ := Nat.exists_eq_add_of_le' hfuel
      rfl
  | cons first more ih =>
    obtain ⟨hfirst, hkeys⟩ := List.forall_mem_cons.mp hkeys
    obtain ⟨hfirstlt, hlt⟩ := List.forall_mem_cons.mp hlt
    rw [List.length_cons] at hfuel
    obtain ⟨fuel, rfl⟩ : ∃ less, fuel = less + 1 := Nat.exists_eq_add_of_le' (by omega)
    cases more with
    | nil =>
      rw [numberLines_singleton]
      calc statementsFrom? (fuel + 1 + 1) statements (numberLine first ++ last)
        _ = statementsFrom? (fuel + 1) (numberStatement first :: statements) [] :=
          statementsFrom?_numberLine hfirst hfirstlt hend
        _ = some (numberStatement first :: statements).reverse := rfl
        _ = _ := by rw [List.reverse_cons, List.map_singleton]
    | cons second more =>
      rw [numberLines_cons_cons, List.append_assoc, List.cons_append,
        statementsFrom?_numberLine hfirst hfirstlt (.next _),
        ih hkeys hlt fuel (by omega), List.reverse_cons, List.append_assoc, List.map_cons]
      rfl

/-! ## Tables -/

theorem addNew_of_not_mem {value : Toml} {members : Members} (h : key ∉ members.map Prod.fst) :
    addNew key value members = some (members ++ [(key, value)]) := by
  rw [addNew]
  induction members with
  | nil => rfl
  | cons m rest ih =>
    obtain ⟨hne, hrest⟩ := not_or.mp (List.mem_cons.not.mp h)
    rw [alter, if_neg (Ne.symm hne), ih hrest]
    rfl

/-- The member of a table that a field stands for. -/
def numberMember (field : String × Nat) : String × Toml :=
  (field.1, .integer field.2)

/-- Fields with keys of their own are added to the root table behind those that are there. -/
theorem foldlM_add_numberStatement (members : Members)
    (h : (members.map Prod.fst ++ fields.map Prod.fst).Nodup) :
    (fields.map numberStatement).foldlM Outline.add ⟨members, []⟩ =
      some ⟨members ++ fields.map numberMember, []⟩ := by
  induction fields generalizing members with
  | nil =>
    rw [List.map_nil, List.map_nil, List.append_nil]
    rfl
  | cons first more ih =>
    have hnew : first.1 ∉ members.map Prod.fst := by
      intro hmem
      exact (List.nodup_append.mp h).2.2 _ hmem _ (List.mem_cons_self ..) rfl
    have hfirst : Outline.add ⟨members, []⟩ (numberStatement first) =
        some ⟨members ++ [numberMember first], []⟩ := by
      rw [numberStatement, Outline.add, atHeader, define, atDotted, addNew_of_not_mem hnew]
      rfl
    have hmore : ((members ++ [numberMember first]).map Prod.fst ++ more.map Prod.fst).Nodup := by
      rw [List.map_append, List.append_assoc]
      exact h
    rw [List.map_cons, List.foldlM_cons, hfirst, Option.bind_eq_bind, Option.bind_some,
      ih _ hmore, List.append_assoc]
    rfl

/-! ## Characters -/

theorem unifyBreaks?_of_not_mem (h : '\r' ∉ text) : unifyBreaks? text = some text := by
  induction text with
  | nil => rfl
  | cons c rest ih =>
    obtain ⟨hne, hrest⟩ := not_or.mp (List.mem_cons.not.mp h)
    rw [unifyBreaks?, if_neg (Ne.symm hne), ih hrest, Option.map_some]
    rintro more heq -
    exact hne heq.symm

theorem isKeyChar_of_isDigit {c : Char} (h : c.isDigit = true) : isKeyChar c = true := by
  simp [isKeyChar, Char.isAlphanum, h]

/-- Nothing but key characters, blanks, equals signs and line breaks stands in a document. -/
theorem mem_numberLines (hkeys : ∀ field ∈ fields, IsBareKey field.1) {c : Char}
    (h : c ∈ numberLines fields) : isKeyChar c = true ∨ c = ' ' ∨ c = '=' ∨ c = '\n' := by
  have hline : ∀ field : String × Nat, IsBareKey field.1 → c ∈ numberLine field →
      isKeyChar c = true ∨ c = ' ' ∨ c = '=' ∨ c = '\n' := by
    intro field hkey hc
    simp only [numberLine, List.mem_append, List.mem_cons] at hc
    rcases hc with hc | rfl | rfl | rfl | hc
    · exact Or.inl (hkey.2 c hc)
    · simp
    · simp
    · simp
    · exact Or.inl (isKeyChar_of_isDigit (isDigit_of_mem_digits hc))
  induction fields with
  | nil => exact absurd h List.not_mem_nil
  | cons first more ih =>
    obtain ⟨hfirst, hkeys⟩ := List.forall_mem_cons.mp hkeys
    cases more with
    | nil => exact hline first hfirst (numberLines_singleton first ▸ h)
    | cons second more =>
      rw [numberLines_cons_cons, List.mem_append, List.mem_cons] at h
      rcases h with h | rfl | h
      · exact hline first hfirst h
      · simp
      · exact ih hkeys h

/-- A document of numbers is read as the table of its fields. -/
theorem read?_numberLines (h : AreNumberFields fields) (hlast : last = [] ∨ last = ['\n']) :
    read? (numberLines fields ++ last) = some (fields.map numberMember) := by
  have hchars : ∀ c ∈ numberLines fields ++ last, c ≠ '\r' ∧ c ≠ '\ufeff' := by
    intro c hc
    have hkinds : isKeyChar c = true ∨ c = ' ' ∨ c = '=' ∨ c = '\n' := by
      rcases List.mem_append.mp hc with hc | hc
      · exact mem_numberLines h.isBareKey hc
      · rcases hlast with rfl | rfl
        · exact absurd hc List.not_mem_nil
        · exact Or.inr (Or.inr (Or.inr (List.mem_singleton.mp hc)))
    rcases hkinds with hkey | rfl | rfl | rfl
    · exact ⟨ne_of_isKeyChar hkey (by decide), ne_of_isKeyChar hkey (by decide)⟩
    all_goals decide
  have hmark : dropByteOrderMark (numberLines fields ++ last) = numberLines fields ++ last := by
    rw [dropByteOrderMark]
    intro rest heq
    exact (hchars '\ufeff' (heq ▸ List.mem_cons_self ..)).2 rfl
  have hbreaks : unifyBreaks? (numberLines fields ++ last) = some (numberLines fields ++ last) :=
    unifyBreaks?_of_not_mem fun hmem => (hchars _ hmem).1 rfl
  have hfuel : fields.length + last.length ≤ (numberLines fields ++ last).length := by
    rw [List.length_append]
    exact Nat.add_le_add_right (length_le_length_numberLines fields) _
  have hroot := foldlM_add_numberStatement [] h.nodup
  rw [read?, hmark, hbreaks]
  simp only [Option.bind_eq_bind, Option.bind_some,
    statementsFrom?_numberLines hlast h.isBareKey h.lt _ hfuel [], List.reverse_nil,
    List.nil_append, ofStatements?]
  rw [hroot]
  rfl

end Toml
end CallImpact
