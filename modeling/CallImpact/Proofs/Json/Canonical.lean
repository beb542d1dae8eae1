import CallImpact.Payload
import CallImpact.Proofs.Json.Scanning
import Mathlib.Data.String.Basic

/-!
# Canonical trees and payloads

A canonical tree is its own canonical form, and every exact tree has a canonical form that is
canonical.  So a payload is read back from its tree, and reading a payload from an exact tree
gives the canonical form of the tree.
-/

namespace CallImpact
namespace Json

/-- None of the numbers in the tree is a double. -/
def isIntegral (j : Json) : Bool :=
  j.everyLeaf fun
    | .real _ => false
    | _ => true

/-! ## Predicates on trees

A predicate holds of all items of an array if it holds of each, and of all members of an
object if it holds of each value. -/

theorem areReadable_iff {xs : List Json} :
    areReadable xs = true ↔ ∀ x ∈ xs, x.isReadable = true := by
  induction xs with
  | nil => simp [areReadable]
  | cons x xs ih => rw [areReadable, Bool.and_eq_true, ih, List.forall_mem_cons]

theorem areReadableMembers_iff {ms : List (String × Json)} :
    areReadableMembers ms = true ↔ ∀ m ∈ ms, m.2.isReadable = true := by
  induction ms with
  | nil => simp [areReadableMembers]
  | cons m ms ih => rw [areReadableMembers, Bool.and_eq_true, ih, List.forall_mem_cons]

theorem everyLeafOfItems_iff {property : Json → Bool} {xs : List Json} :
    everyLeafOfItems property xs = true ↔ ∀ x ∈ xs, x.everyLeaf property = true := by
  induction xs with
  | nil => simp [everyLeafOfItems]
  | cons x xs ih => rw [everyLeafOfItems, Bool.and_eq_true, ih, List.forall_mem_cons]

theorem everyLeafOfMembers_iff {property : Json → Bool} {ms : List (String × Json)} :
    everyLeafOfMembers property ms = true ↔ ∀ m ∈ ms, m.2.everyLeaf property = true := by
  induction ms with
  | nil => simp [everyLeafOfMembers]
  | cons m ms ih => rw [everyLeafOfMembers, Bool.and_eq_true, ih, List.forall_mem_cons]

theorem isExact_array {xs : List Json} :
    (Json.array xs).isExact = true ↔ ∀ x ∈ xs, x.isExact = true :=
  everyLeafOfItems_iff

theorem isExact_object {ms : List (String × Json)} :
    (Json.object ms).isExact = true ↔ ∀ m ∈ ms, m.2.isExact = true :=
  everyLeafOfMembers_iff

theorem areCanonical_iff {xs : List Json} :
    areCanonical xs = true ↔ ∀ x ∈ xs, x.isCanonical = true := by
  induction xs with
  | nil => simp [areCanonical]
  | cons x xs ih => rw [areCanonical, Bool.and_eq_true, ih, List.forall_mem_cons]

theorem areCanonicalMembers_iff {ms : List (String × Json)} :
    areCanonicalMembers ms = true ↔ ∀ m ∈ ms, m.2.isCanonical = true := by
  induction ms with
  | nil => simp [areCanonicalMembers]
  | cons m ms ih => rw [areCanonicalMembers, Bool.and_eq_true, ih, List.forall_mem_cons]

theorem isCanonical_array {xs : List Json} :
    (Json.array xs).isCanonical = true ↔ ∀ x ∈ xs, x.isCanonical = true :=
  areCanonical_iff

theorem isCanonical_object {ms : List (String × Json)} :
    (Json.object ms).isCanonical = true ↔
      keysAscend ms = true ∧ areCanonicalMembers ms = true :=
  Bool.and_eq_true_iff

/-- What a container has if all trees in it do, every tree has as soon as the leaves do. -/
theorem tree_induction {motive : Json → Prop}
    (array : ∀ xs, (∀ x ∈ xs, motive x) → motive (.array xs))
    (object : ∀ ms, (∀ m ∈ ms, motive m.2) → motive (.object ms))
    (null : motive .null) (bool : ∀ value, motive (.bool value))
    (int : ∀ value, motive (.int value)) (real : ∀ value, motive (.real value))
    (string : ∀ text, motive (.string text)) (unreadable : motive .unreadable) :
    (j : Json) → motive j :=
  @Json.rec motive (fun xs => ∀ x ∈ xs, motive x) (fun ms => ∀ m ∈ ms, motive m.2)
    (fun m => motive m.2) null bool int real string array object unreadable
    (fun _ h => absurd h List.not_mem_nil)
    (fun _ _ hx hxs => List.forall_mem_cons.mpr ⟨hx, hxs⟩)
    (fun _ h => absurd h List.not_mem_nil)
    (fun _ _ hm hms => List.forall_mem_cons.mpr ⟨hm, hms⟩)
    (fun _ _ hx => hx)

theorem everyLeaf_mono {p q : Json → Bool} (hpq : ∀ leaf, p leaf = true → q leaf = true)
    {j : Json} (h : j.everyLeaf p = true) : j.everyLeaf q = true := by
  induction j using tree_induction with
  | array xs ih =>
    exact everyLeafOfItems_iff.mpr fun x hx => ih x hx (everyLeafOfItems_iff.mp h x hx)
  | object ms ih =>
    exact everyLeafOfMembers_iff.mpr fun m hm => ih m hm (everyLeafOfMembers_iff.mp h m hm)
  | null | bool | int | real | string | unreadable => exact hpq _ h

/-- A tree is readable if its leaves are. -/
theorem isReadable_iff_everyLeaf {j : Json} :
    j.isReadable = true ↔ j.everyLeaf isReadable = true := by
  induction j using tree_induction with
  | array xs ih =>
    rw [isReadable, areReadable_iff, everyLeaf, everyLeafOfItems_iff]
    exact forall₂_congr ih
  | object ms ih =>
    rw [isReadable, areReadableMembers_iff, everyLeaf, everyLeafOfMembers_iff]
    exact forall₂_congr ih
  | null | bool | int | real | string | unreadable => exact Iff.rfl

theorem isReadable_of_isExactLeaf : (leaf : Json) → leaf.isExactLeaf = true →
    leaf.isReadable = true
  | .null, _ | .bool _, _ | .int _, _ | .string _, _ => rfl
  | .real _, h | .array _, h | .object _, h | .unreadable, h => absurd h Bool.false_ne_true

theorem isReadable_of_isExact {j : Json} (h : j.isExact = true) : j.isReadable = true :=
  isReadable_iff_everyLeaf.mpr (everyLeaf_mono isReadable_of_isExactLeaf h)

theorem isReadable_of_isCanonical {j : Json} (h : j.isCanonical = true) :
    j.isReadable = true := by
  induction j using tree_induction with
  | array xs ih =>
    rw [isReadable, areReadable_iff]
    exact fun x hx => ih x hx (isCanonical_array.mp h x hx)
  | object ms ih =>
    rw [isReadable, areReadableMembers_iff]
    exact fun m hm => ih m hm (areCanonicalMembers_iff.mp (isCanonical_object.mp h).2 m hm)
  | unreadable => exact absurd h (by decide)
  | null | bool | int | real | string => rfl

/-- A canonical tree without doubles is exact. -/
theorem isExact_of_isCanonical {j : Json} (h : j.isCanonical = true)
    (hintegral : j.isIntegral = true) : j.isExact = true := by
  induction j using tree_induction with
  | array xs ih =>
    rw [isExact_array]
    exact fun x hx =>
      ih x hx (isCanonical_array.mp h x hx) (everyLeafOfItems_iff.mp hintegral x hx)
  | object ms ih =>
    rw [isExact_object]
    intro m hm
    exact ih m hm (areCanonicalMembers_iff.mp (isCanonical_object.mp h).2 m hm)
      (everyLeafOfMembers_iff.mp hintegral m hm)
  | int value => exact h
  | real value => exact absurd hintegral Bool.false_ne_true
  | unreadable => exact absurd h (by decide)
  | null | bool | string => rfl

variable {key : String} {value : Json} {members sorted : List (String × Json)}

theorem keysAscend_iff :
    keysAscend members = true ↔ (members.map Prod.fst).Pairwise (· < ·) := by
  induction members with
  | nil => exact iff_of_true rfl .nil
  | cons m rest ih =>
    obtain ⟨k, x⟩ := m
    rcases rest with _ | ⟨⟨l, y⟩, rest⟩
    · exact iff_of_true rfl (List.pairwise_singleton ..)
    · rw [keysAscend, Bool.and_eq_true, decide_eq_true_eq, ih, List.map_cons, List.map_cons,
        List.map_cons, List.pairwise_cons (a := k)]
      constructor
      · rintro ⟨hkl, hrest⟩
        refine ⟨fun j hj => ?_, hrest⟩
        rcases List.mem_cons.mp hj with rfl | hj
        · exact hkl
        · exact String.lt_trans hkl (List.rel_of_pairwise_cons hrest hj)
      · rintro ⟨hk, hrest⟩
        exact ⟨hk l (List.mem_cons_self ..), hrest⟩

/-! ## Inserting members -/

theorem mem_keys_insertSorted {k : String}
    (h : k ∈ (insertSorted key value sorted).map Prod.fst) :
    k = key ∨ k ∈ sorted.map Prod.fst := by
  induction sorted with
  | nil => simpa [insertSorted] using h
  | cons m rest ih =>
    obtain ⟨l, x⟩ := m
    rw [insertSorted] at h
    split_ifs at h with hlt heq
    · simpa using h
    · subst heq
      simpa using h
    · rw [List.map_cons, List.mem_cons] at h
      rcases h with rfl | h
      · simp
      · exact (ih h).imp_right (List.mem_cons_of_mem _)

theorem keysAscend_insertSorted (h : keysAscend sorted = true) :
    keysAscend (insertSorted key value sorted) = true := by
  rw [keysAscend_iff] at h ⊢
  induction sorted with
  | nil => exact List.pairwise_singleton ..
  | cons m rest ih =>
    obtain ⟨l, x⟩ := m
    rw [List.map_cons, List.pairwise_cons] at h
    obtain ⟨hfirst, hrest⟩ := h
    rw [insertSorted]
    split_ifs with hlt heq
    · refine List.pairwise_cons.mpr ⟨fun k hk => ?_, List.pairwise_cons.mpr ⟨hfirst, hrest⟩⟩
      rcases List.mem_cons.mp hk with rfl | hk
      · exact hlt
      · exact String.lt_trans hlt (hfirst k hk)
    · subst heq
      exact List.pairwise_cons.mpr ⟨hfirst, hrest⟩
    · refine List.pairwise_cons.mpr ⟨fun k hk => ?_, ih hrest⟩
      rcases mem_keys_insertSorted hk with rfl | hk
      · exact lt_of_le_of_ne (not_lt.mp hlt) (Ne.symm heq)
      · exact hfirst k hk

theorem areCanonicalMembers_insertSorted (hvalue : value.isCanonical = true)
    (h : areCanonicalMembers sorted = true) :
    areCanonicalMembers (insertSorted key value sorted) = true := by
  induction sorted with
  | nil => rw [insertSorted, areCanonicalMembers, hvalue, h, Bool.and_self]
  | cons m rest ih =>
    obtain ⟨l, x⟩ := m
    obtain ⟨hx, hrest⟩ := (Bool.and_eq_true ..).mp h
    rw [insertSorted]
    split_ifs
    · rw [areCanonicalMembers, hvalue, h, Bool.and_self]
    · rw [areCanonicalMembers, hvalue, hrest, Bool.and_self]
    · rw [areCanonicalMembers, hx, ih hrest, Bool.and_self]

/-- A key above all others is inserted at the end. -/
theorem insertSorted_of_forall_lt (h : ∀ m ∈ sorted, m.1 < key) :
    insertSorted key value sorted = sorted ++ [(key, value)] := by
  induction sorted with
  | nil => rfl
  | cons m rest ih =>
    obtain ⟨hm, hrest⟩ := List.forall_mem_cons.mp h
    have hne : key ≠ m.1 := fun heq => String.lt_irrefl _ (heq ▸ hm)
    rw [insertSorted, if_neg (String.lt_asymm hm), if_neg hne, ih hrest, List.cons_append]

/-! ## Canonical forms -/

theorem canonicalItems_eq_map (xs : List Json) : canonicalItems xs = xs.map canonical := by
  induction xs with
  | nil => rfl
  | cons x xs ih => rw [canonicalItems, ih, List.map_cons]

theorem canonicalMembers_of_forall {ms : List (String × Json)} (sorted : List (String × Json))
    (hms : ∀ m ∈ ms, m.2.canonical = m.2) (hkeys : keysAscend (sorted ++ ms) = true) :
    canonicalMembers ms sorted = sorted ++ ms := by
  induction ms generalizing sorted with
  | nil => exact (List.append_nil sorted).symm
  | cons m ms ih =>
    obtain ⟨hm, hms⟩ := List.forall_mem_cons.mp hms
    have hlt : ∀ l ∈ sorted, l.1 < m.1 := by
      intro l hl
      rw [keysAscend_iff, List.map_append, List.pairwise_append] at hkeys
      exact hkeys.2.2 _ (List.mem_map_of_mem hl) _ (List.mem_cons_self ..)
    have hnext := ih (sorted ++ [m]) hms (by rwa [List.append_assoc])
    rw [canonicalMembers, hm, insertSorted_of_forall_lt hlt, hnext, List.append_assoc,
      List.singleton_append]

/-- A canonical tree is its own canonical form. -/
theorem canonical_of_isCanonical {j : Json} (h : j.isCanonical = true) : j.canonical = j := by
  induction j using tree_induction with
  | array xs ih =>
    have hxs : ∀ x ∈ xs, x.canonical = x := fun x hx => ih x hx (isCanonical_array.mp h x hx)
    rw [canonical, canonicalItems_eq_map, List.map_congr_left hxs, List.map_id']
  | object ms ih =>
    obtain ⟨hkeys, hms⟩ := isCanonical_object.mp h
    have hvalues : ∀ m ∈ ms, m.2.canonical = m.2 :=
      fun m hm => ih m hm (areCanonicalMembers_iff.mp hms m hm)
    rw [canonical, canonicalMembers_of_forall [] hvalues hkeys, List.nil_append]
  | null | bool | int | real | string | unreadable => rfl

theorem canonicalMembers_spec {ms : List (String × Json)}
    (hms : ∀ m ∈ ms, m.2.canonical.isCanonical = true) (sorted : List (String × Json))
    (hkeys : keysAscend sorted = true)
    (hsorted : areCanonicalMembers sorted = true) :
    keysAscend (canonicalMembers ms sorted) = true ∧
      areCanonicalMembers (canonicalMembers ms sorted) = true := by
  induction ms generalizing sorted with
  | nil => exact ⟨hkeys, hsorted⟩
  | cons m ms ih =>
    obtain ⟨hm, hms⟩ := List.forall_mem_cons.mp hms
    exact ih hms _ (keysAscend_insertSorted hkeys) (areCanonicalMembers_insertSorted hm hsorted)

/-- The canonical form of an exact tree is canonical. -/
theorem isCanonical_canonical {j : Json} (h : j.isExact = true) :
    j.canonical.isCanonical = true := by
  induction j using tree_induction with
  | array xs ih =>
    rw [canonical, isCanonical_array, canonicalItems_eq_map, List.forall_mem_map]
    exact fun x hx => ih x hx (isExact_array.mp h x hx)
  | object ms ih =>
    have hms : ∀ m ∈ ms, m.2.canonical.isCanonical = true :=
      fun m hm => ih m hm (isExact_object.mp h m hm)
    exact isCanonical_object.mpr (canonicalMembers_spec hms [] rfl rfl)
  | int value => exact h
  | real value => exact absurd h Bool.false_ne_true
  | unreadable => exact absurd h (by decide)
  | null | bool | string => rfl

end Json

namespace Payload

theorem ext {p q : Payload} (h : p.tree = q.tree) : p = q := by
  cases p
  cases q
  exact (Payload.mk.injEq ..).mpr h

theorem everyLeaf_isReadable (p : Payload) : p.tree.everyLeaf Json.isReadable = true :=
  Json.isReadable_iff_everyLeaf.mp (Json.isReadable_of_isCanonical p.canonical)

/-- A payload is read back from its tree. -/
theorem ofJson?_tree (p : Payload) : ofJson? p.tree = some p := by
  have hform : p.tree.canonical = p.tree := Json.canonical_of_isCanonical p.canonical
  have hreadable := Json.isReadable_of_isCanonical p.canonical
  have hcanonical : p.tree.canonical.isCanonical = true := hform.symm ▸ p.canonical
  rw [ofJson?, dif_pos ⟨hreadable, hcanonical⟩]
  simp only [hform]

/-- An exact tree is read as its canonical form. -/
theorem exists_ofJson?_eq_some {j : Json} (h : j.isExact = true) :
    ∃ p, ofJson? j = some p ∧ p.tree = j.canonical :=
  ⟨_, dif_pos ⟨Json.isReadable_of_isExact h, Json.isCanonical_canonical h⟩, rfl⟩

end Payload
end CallImpact
