import CallImpact.Limits.Syntax
import CallImpact.Proofs.Document.Spellings
import CallImpact.Proofs.Text.Utf8
import CallImpact.Proofs.Toml.Numbers
import Mathlib.Data.List.Permutation

/-!
# Limits in two syntaxes

Limits are read from an object of JSON and from lines of TOML, with the same result.  A document
of one syntax is not taken for one of the other: the keys of the lines begin with a word that
JSON does not know.  Limits that allow no reference are refused in either syntax.
-/

namespace CallImpact
namespace Limits

open Document Record

variable {l : Limits} {bytes : List UInt8}

theorem maxReferences_ne_of_checked {l' : Limits} (h : l.checked = .ok l') :
    l'.maxReferences ≠ some 0 := by
  rw [checked] at h
  split at h
  case isTrue => cases h
  case isFalse hzero =>
    cases h
    exact hzero

/-- Whatever the syntax, limits are checked before they are returned. -/
theorem maxReferences_ne_of_read (h : read bytes = .ok l) : l.maxReferences ≠ some 0 := by
  rw [read] at h
  split at h
  case h_1 => exact maxReferences_ne_of_checked h
  case h_2 =>
    split at h
    case h_1 => cases h
    case h_2 =>
      split at h
      case h_1 => exact maxReferences_ne_of_checked h
      case h_2 => cases h

theorem read_of_readJson? (h : readJson? bytes = some l) : read bytes = l.checked := by
  rw [read, h]

theorem read_of_readToml? {text : List Char} (hjson : readJson? bytes = none)
    (htext : Utf8.decode bytes = .ok text) (h : readToml? text = some l) :
    read bytes = l.checked := by
  rw [read, hjson, htext]
  simp only [h]

/-! ## Objects -/

/-- The members that give a maximum.  Without a maximum there is a null or no member. -/
inductive GivesMaximum : Option UInt64 → List (String × Json) → Prop
  | absent : GivesMaximum none []
  | null : GivesMaximum none [("max_references_per_function", .null)]
  | number (n : UInt64) : GivesMaximum (some n) [("max_references_per_function", toJson n)]

/-- The members of an object that holds the limits, in any order. -/
def AreMembers (l : Limits) (members : List (String × Json)) : Prop :=
  ∃ maximum, GivesMaximum l.maxReferences maximum ∧
    members.Perm (("min_index_name_len", toJson l.minNameLength) :: maximum)

variable {members : List (String × Json)}

/-- Without a member for it there is no maximum. -/
theorem ofJson?_of_slots_none {j minimum : Json}
    (hslots : slots? ["min_index_name_len", "max_references_per_function"] j =
      some [some minimum, none])
    {length : UInt64} (hminimum : ofJson? minimum = some length) :
    ofJson? j = some (⟨length, none⟩ : Limits) := by
  unfold instDocumentLimits
  simp [hslots, defaulted, Record.optional, hminimum]

theorem ofJson?_of_areMembers (h : AreMembers l members) : ofJson? (.object members) = some l := by
  obtain ⟨minimum, maxReferences⟩ := l
  obtain ⟨maximum, hmaximum, hperm⟩ := h
  have hkeys : ((("min_index_name_len", toJson minimum) :: maximum).map Prod.fst).Nodup := by
    cases hmaximum <;> simp
  rw [RecordDocument.ofJson?_of_respells (Respells.of_perm _ hkeys hperm)]
  have hminimum := ofJson?_toJson minimum
  cases hmaximum with
  | absent => exact ofJson?_of_slots_none (by simp [slots?, slotsOfMembers?]) hminimum
  | null => exact ofJson?_object hminimum rfl
  | number n =>
    have hnull : toJson n ≠ .null := by
      intro hnull
      cases hnull
    exact ofJson?_object hminimum (optional_eq_some hnull (ofJson?_toJson n))

/-- The members hold numbers and nulls only. -/
theorem eq_null_or_toJson_of_areMembers (h : AreMembers l members) :
    ∀ m ∈ members, m.2 = .null ∨ ∃ n : UInt64, m.2 = toJson n := by
  obtain ⟨minimum, maxReferences⟩ := l
  obtain ⟨maximum, hmaximum, hperm⟩ := h
  intro m hm
  rcases List.mem_cons.mp (hperm.mem_iff.mp hm) with rfl | hm
  · exact Or.inr ⟨_, rfl⟩
  · cases hmaximum with
    | absent => cases hm
    | null => exact Or.inl (List.mem_singleton.mp hm ▸ rfl)
    | number n => exact Or.inr ⟨n, List.mem_singleton.mp hm ▸ rfl⟩

theorem ofBytes?_encode_render (h : AreMembers l members) :
    Json.ofBytes? (Utf8.encode (Json.object members).render) = some (.object members) := by
  have hvalues := eq_null_or_toJson_of_areMembers h
  have hexact : (Json.object members).isExact = true := by
    refine Json.everyLeafOfMembers_iff.mpr fun m hm => ?_
    rcases hvalues m hm with hnull | ⟨n, hn⟩
    · rw [hnull]
      rfl
    · rw [hn]
      exact isExact_toJson n (by simp [payloads])
  have hdepth : (Json.object members).depth ≤ Json.maxDepth := by
    have hmembers : Json.depthOfMembers members ≤ 0 := by
      refine Json.depthOfMembers_le_iff.mpr fun m hm => ?_
      rcases hvalues m hm with hnull | ⟨n, hn⟩
      · rw [hnull]
        exact Nat.le_refl 0
      · rw [hn]
        exact Nat.le_refl 0
    rw [Json.depth, Json.maxDepth]
    omega
  rw [Json.ofBytes?, Utf8.symbols_encode]
  exact Json.ofString?_render_of_depth_le hexact hdepth

theorem readJson?_of_areMembers (h : AreMembers l members)
    (hbytes : Json.ofBytes? bytes = some (.object members)) : readJson? bytes = some l := by
  rw [readJson?, hbytes, Option.bind_some, ofJson?_of_areMembers h]

/-! ## Lines -/

/-- The number of each field that limits have. -/
def numberFields (l : Limits) : List (String × Nat) :=
  ("min_index_name_len", l.minNameLength.toNat) ::
    l.maxReferences.toList.map fun n => ("max_references_per_function", n.toNat)

/-- A text of one line for each of these fields, in any order. -/
def IsLines (l : Limits) (text : String) : Prop :=
  ∃ fields last, fields.Perm l.numberFields ∧ (last = [] ∨ last = ['\n']) ∧
    text.toList = Toml.numberLines fields ++ last

/-- All numbers of the limits fit into a signed word. -/
def HaveSignedNumbers (l : Limits) : Prop :=
  l.minNameLength.toNat < 2 ^ 63 ∧ ∀ n ∈ l.maxReferences, n.toNat < 2 ^ 63

variable {text : String} {fields : List (String × Nat)}

theorem mem_numberFields_iff {field : String × Nat} :
    field ∈ l.numberFields ↔ field = ("min_index_name_len", l.minNameLength.toNat) ∨
      ∃ n ∈ l.maxReferences, field = ("max_references_per_function", n.toNat) := by
  simp [numberFields, eq_comm]

theorem areNumberFields (hnumbers : HaveSignedNumbers l) (hperm : fields.Perm l.numberFields) :
    Toml.AreNumberFields fields where
  isBareKey field hfield := by
    have hminimum : Toml.IsBareKey "min_index_name_len" := by decide
    have hmaximum : Toml.IsBareKey "max_references_per_function" := by decide
    rcases mem_numberFields_iff.mp (hperm.mem_iff.mp hfield) with rfl | ⟨n, _, rfl⟩
    · exact hminimum
    · exact hmaximum
  lt field hfield := by
    rcases mem_numberFields_iff.mp (hperm.mem_iff.mp hfield) with rfl | ⟨n, hn, rfl⟩
    · exact hnumbers.1
    · exact hnumbers.2 n hn
  nodup := by
    rw [(hperm.map Prod.fst).nodup_iff, numberFields]
    cases l.maxReferences <;> simp

theorem tomlNumber?_toNat (n : UInt64) : tomlNumber? (.integer n.toNat) = some n := by
  simp [tomlNumber?]

theorem ofToml?_numberMembers (hperm : fields.Perm l.numberFields) :
    ofToml? (fields.map Toml.numberMember) = some l := by
  obtain ⟨minimum, _ | maximum⟩ := l
  · rw [List.perm_singleton.mp hperm]
    simp [ofToml?, Toml.numberMember, List.lookup_cons, tomlNumber?_toNat]
  · rcases List.perm_pair.mp hperm with rfl | rfl
    · simp [ofToml?, Toml.numberMember, List.lookup_cons, tomlNumber?_toNat]
    · simp [ofToml?, Toml.numberMember, List.lookup_cons, tomlNumber?_toNat]

theorem readToml?_of_isLines (hnumbers : HaveSignedNumbers l) (h : IsLines l text) :
    readToml? text.toList = some l := by
  obtain ⟨fields, last, hperm, hlast, htext⟩ := h
  rw [readToml?, htext, Toml.read?_numberLines (areNumberFields hnumbers hperm) hlast,
    Option.bind_some, ofToml?_numberMembers hperm]

/-- Both keys begin with a word that means nothing, and that ends before an underscore. -/
theorem exists_word_of_isLines (h : IsLines l text) :
    ∃ word rest, (word = ['m', 'i', 'n'] ∨ word = ['m', 'a', 'x']) ∧
      text.toList = word ++ '_' :: rest := by
  obtain ⟨fields, last, hperm, -, htext⟩ := h
  cases fields with
  | nil => exact absurd hperm.symm (List.not_perm_cons_nil)
  | cons first more =>
    obtain ⟨lines, hlines⟩ := Toml.exists_numberLines_eq_append first more
    rw [htext, hlines, List.append_assoc]
    have hfirst : first ∈ l.numberFields := hperm.mem_iff.mp (List.mem_cons_self ..)
    rcases mem_numberFields_iff.mp hfirst with rfl | ⟨n, _, rfl⟩
    · exact ⟨['m', 'i', 'n'], "index_name_len".toList ++ (lines ++ last), Or.inl rfl, by simp⟩
    · exact ⟨['m', 'a', 'x'], "references_per_function".toList ++ (lines ++ last), Or.inr rfl,
        by simp⟩

theorem readJson?_of_isLines (h : IsLines l text) : readJson? (Utf8.encode text) = none := by
  obtain ⟨word, rest, hword, htext⟩ := exists_word_of_isLines h
  have htokens : Json.tokens? (text.toList.map some) = none := by
    rw [htext]
    rcases hword with rfl | rfl
    · exact Json.tokens?_eq_none_of_word rfl nofun (List.all_eq_true.mp rfl) rfl
    · exact Json.tokens?_eq_none_of_word rfl nofun (List.all_eq_true.mp rfl) rfl
  rw [readJson?, Json.ofBytes?, Utf8.symbols_encode, Json.ofSymbols?, htokens]
  rfl

/-- What is read are limits that allow a reference.  Every object with the fields of limits is
read as these limits, a printed one among others, and so are lines with the fields, which are no
JSON; limits that allow no reference are refused both times. -/
theorem read_eq_in_both_syntaxes :
    (∀ bytes l, read bytes = .ok l → l.maxReferences ≠ some 0) ∧
    (∀ l members, AreMembers l members →
      Json.ofBytes? (Utf8.encode (Json.object members).render) = some (.object members) ∧
        ∀ bytes, Json.ofBytes? bytes = some (.object members) →
          read bytes = if l.maxReferences = some 0 then .error (.invalidLimits .zeroReferences)
            else .ok l) ∧
    ∀ l text, HaveSignedNumbers l → IsLines l text →
      readJson? (Utf8.encode text) = none ∧
        read (Utf8.encode text) =
          if l.maxReferences = some 0 then .error (.invalidLimits .zeroReferences)
            else .ok l := by
  refine ⟨fun _ _ => maxReferences_ne_of_read, fun l members h => ⟨?_, fun bytes hbytes => ?_⟩,
    fun l text hnumbers h => ⟨?_, ?_⟩⟩
  · exact ofBytes?_encode_render h
  · exact read_of_readJson? (readJson?_of_areMembers h hbytes)
  · exact readJson?_of_isLines h
  · exact read_of_readToml? (readJson?_of_isLines h) (Utf8.decode_encode text)
      (readToml?_of_isLines hnumbers h)

/-- The longest name length of all, without a maximum. -/
def widest : Limits :=
  ⟨18446744073709551615, none⟩

def widestMembers : List (String × Json) :=
  [("max_references_per_function", .null),
    ("min_index_name_len", .int 18446744073709551615)]

/-- The longest name length that lines can hold, and no reference at all. -/
def closed : Limits :=
  ⟨9223372036854775807, some 0⟩

def closedText : String :=
  "max_references_per_function = 0\nmin_index_name_len = 9223372036854775807\n"

theorem read_eq_in_both_syntaxes_widest_closed :
    AreMembers widest widestMembers ∧
      read (Utf8.encode (Json.object widestMembers).render) = .ok widest ∧
      widest.maxReferences ≠ some 0 ∧
      HaveSignedNumbers closed ∧ IsLines closed closedText ∧
      readJson? (Utf8.encode closedText) = none ∧
      read (Utf8.encode closedText) = .error (.invalidLimits .zeroReferences) := by
  have hmembers : AreMembers widest widestMembers := ⟨_, .null, List.Perm.swap _ _ _⟩
  have hnumbers : HaveSignedNumbers closed :=
    ⟨by decide, fun n hn => Option.some_inj.mp hn ▸ by decide⟩
  have hlines : IsLines closed closedText :=
    ⟨_, ['\n'], List.Perm.swap _ _ _, Or.inr rfl, by decide +kernel⟩
  have hprinted := read_eq_in_both_syntaxes.2.1 _ _ hmembers
  have hread : read (Utf8.encode (Json.object widestMembers).render) = .ok widest :=
    hprinted.2 _ hprinted.1
  have hclosed := read_eq_in_both_syntaxes.2.2 _ _ hnumbers hlines
  exact ⟨hmembers, hread, read_eq_in_both_syntaxes.1 _ _ hread, hnumbers, hlines, hclosed⟩

end Limits
end CallImpact
