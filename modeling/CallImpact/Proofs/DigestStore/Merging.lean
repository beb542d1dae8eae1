import CallImpact.DigestStore
import CallImpact.Proofs.Support.Lists

/-!
# What a store of digests holds

Inserting digests one after the other stores, under each signature, the merge of the
digests with that signature in their order.  So a signature is listed under another one
exactly if one of those digests lists it, in whatever order they came.
-/

namespace CallImpact

namespace Digest

/-- The first digest, with the neighbours of the others merged into it in order. -/
def mergeAll : List Digest → Option Digest
  | [] => none
  | d :: rest => some (rest.foldl merge d)

variable {d more : Digest} {r : Relation} {t : Signature}

theorem mem_mergeSignatures {signatures more : List Signature} :
    t ∈ mergeSignatures signatures more ↔ t ∈ signatures ∨ t ∈ more := by
  induction more generalizing signatures with
  | nil => simp [mergeSignatures]
  | cons s more ih =>
    rw [mergeSignatures, List.foldl_cons, ← mergeSignatures, ih]
    by_cases hs : s ∈ signatures
    · rw [if_pos hs, List.mem_cons]
      constructor
      · rintro (ht | ht)
        · exact Or.inl ht
        · exact Or.inr (Or.inr ht)
      · rintro (ht | rfl | ht)
        · exact Or.inl ht
        · exact Or.inl hs
        · exact Or.inr ht
    · rw [if_neg hs, List.mem_append, List.mem_singleton, List.mem_cons, or_assoc]

/-- Merging repeats no signature that was not repeated before. -/
theorem count_mergeSignatures_le_one_iff {signatures more : List Signature} :
    (mergeSignatures signatures more).count t ≤ 1 ↔ signatures.count t ≤ 1 := by
  induction more generalizing signatures with
  | nil => rfl
  | cons s more ih =>
    rw [mergeSignatures, List.foldl_cons, ← mergeSignatures, ih]
    by_cases hs : s ∈ signatures
    · rw [if_pos hs]
    · rw [if_neg hs, List.count_append]
      by_cases ht : s = t
      · subst ht
        rw [List.count_eq_zero.mpr hs, List.count_singleton_self]
        exact iff_of_true (by omega) (by omega)
      · rw [List.count_cons_of_ne ht, List.count_nil, Nat.add_zero]

theorem mem_neighbours_merge :
    t ∈ (d.merge more).neighbours r ↔ t ∈ d.neighbours r ∨ t ∈ more.neighbours r := by
  cases r with
  | calls => exact mem_mergeSignatures
  | callers => exact mem_mergeSignatures

theorem function_foldl_merge (d : Digest) (later : List Digest) :
    (later.foldl merge d).function = d.function := by
  induction later generalizing d with
  | nil => rfl
  | cons first rest ih => exact ih (d.merge first)

theorem count_neighbours_merge_le_one_iff :
    ((d.merge more).neighbours r).count t ≤ 1 ↔ (d.neighbours r).count t ≤ 1 := by
  cases r with
  | calls => exact count_mergeSignatures_le_one_iff
  | callers => exact count_mergeSignatures_le_one_iff

theorem count_neighbours_foldl_merge_le_one_iff {rest : List Digest} :
    ((rest.foldl merge d).neighbours r).count t ≤ 1 ↔ (d.neighbours r).count t ≤ 1 := by
  induction rest generalizing d with
  | nil => rfl
  | cons first rest ih => rw [List.foldl_cons, ih, count_neighbours_merge_le_one_iff]

theorem mem_neighbours_foldl_merge {rest : List Digest} :
    t ∈ (rest.foldl merge d).neighbours r ↔ ∃ d' ∈ d :: rest, t ∈ d'.neighbours r := by
  induction rest generalizing d with
  | nil => simp
  | cons first rest ih =>
    rw [List.foldl_cons, ih]
    simp only [List.mem_cons, exists_eq_or_imp, mem_neighbours_merge, or_assoc]

end Digest

namespace DigestStore

/-- The keys are the signatures under which something is stored. -/
theorem mem_keys_iff {s : DigestStore} {key : Signature} :
    key ∈ s.keys ↔ ∃ d, s.get? key = some d := by
  rw [← Option.ne_none_iff_exists', get?, keys, ne_eq, List.lookup_eq_none_iff, List.mem_map]
  constructor
  · rintro ⟨entry, hentry, rfl⟩ hall
    have hne := hall entry hentry
    simp at hne
  · intro hsome
    by_contra hnone
    apply hsome
    intro entry hentry
    rw [bne_iff_ne]
    exact fun heq => hnone ⟨entry, hentry, heq.symm⟩

/-- The digests with a signature, in their order. -/
def digestsOf (digests : List Digest) (key : Signature) : List Digest :=
  digests.filter fun d => decide (d.function.signature = key)

theorem get?_foldl_insert (s : DigestStore) (digests : List Digest) (key : Signature) :
    (digests.foldl insert s).get? key =
      Digest.mergeAll ((s.get? key).toList ++ digestsOf digests key) := by
  induction digests generalizing s with
  | nil =>
    rw [List.foldl_nil, digestsOf, List.filter_nil, List.append_nil]
    cases s.get? key <;> rfl
  | cons d digests ih =>
    rw [List.foldl_cons, ih, get?_insert, digestsOf, digestsOf, List.filter_cons]
    by_cases hkey : d.function.signature = key
    · subst hkey
      rw [if_pos rfl, decide_eq_true rfl, if_pos rfl]
      cases s.get? d.function.signature <;> rfl
    · rw [if_neg (Ne.symm hkey), decide_eq_false hkey]
      rfl

theorem get?_ofList (digests : List Digest) (key : Signature) :
    (ofList digests).get? key = Digest.mergeAll (digestsOf digests key) :=
  get?_foldl_insert empty digests key

theorem mem_digestsOf {digests : List Digest} {key : Signature} {d : Digest} :
    d ∈ digestsOf digests key ↔ d ∈ digests ∧ d.function.signature = key := by
  rw [digestsOf, List.mem_filter, decide_eq_true_eq]

theorem mem_keys_ofList_iff {digests : List Digest} {key : Signature} :
    key ∈ (ofList digests).keys ↔ ∃ d ∈ digests, d.function.signature = key := by
  simp only [mem_keys_iff, get?_ofList, ← mem_digestsOf]
  cases digestsOf digests key with
  | nil => simp [Digest.mergeAll]
  | cons d rest => simp [Digest.mergeAll]

/-- Digests of different signatures are stored as they are. -/
theorem get?_ofList_of_nodup {digests : List Digest} {d : Digest}
    (h : (digests.map fun d => d.function.signature).Nodup) (hd : d ∈ digests) :
    (ofList digests).get? d.function.signature = some d := by
  have honly : digestsOf digests d.function.signature = [d] := by
    apply filter_eq_singleton (h.of_map _) hd
    intro d' hd'
    rw [decide_eq_true_iff]
    constructor
    · intro heq
      exact List.inj_on_of_nodup_map h hd' hd heq
    · intro heq
      rw [heq]
  rw [get?_ofList, honly]
  rfl

/-- Under a signature another one is listed along a relation. -/
def Lists (s : DigestStore) (r : Relation) (key other : Signature) : Prop :=
  ∃ d, s.get? key = some d ∧ other ∈ d.neighbours r

theorem lists_ofList_iff {digests : List Digest} {r : Relation} {key other : Signature} :
    (ofList digests).Lists r key other ↔
      ∃ d ∈ digests, d.function.signature = key ∧ other ∈ d.neighbours r := by
  simp only [Lists, get?_ofList, ← and_assoc, ← mem_digestsOf]
  cases digestsOf digests key with
  | nil => simp [Digest.mergeAll]
  | cons d rest =>
    rw [← Digest.mem_neighbours_foldl_merge]
    simp [Digest.mergeAll]

/-- What is listed once or not at all in the first digest with a signature is so in what is
stored under it. -/
theorem count_le_one_iff_of_get?_ofList {digests : List Digest} {key : Signature}
    {d first : Digest} (h : (ofList digests).get? key = some d)
    (hfirst : digests.find? (fun d' => decide (d'.function.signature = key)) = some first)
    (r : Relation) (t : Signature) :
    (d.neighbours r).count t ≤ 1 ↔ (first.neighbours r).count t ≤ 1 := by
  rw [← List.head?_filter] at hfirst
  obtain ⟨rest, hrest⟩ := List.head?_eq_some_iff.mp hfirst
  rw [get?_ofList, digestsOf, hrest, Digest.mergeAll, Option.some_inj] at h
  rw [← h, Digest.count_neighbours_foldl_merge_le_one_iff]

/-! ## Answers -/

theorem answer_lookup {s : DigestStore} {key : Signature} {d : Digest}
    (h : s.get? key = some d) (r : Relation) :
    (s.lookup r).answer key = .ok (d.neighbours r) := by
  simp only [lookup, h]

/-- The signatures listed under a key along a relation, none if nothing is stored there. -/
def listed (s : DigestStore) (r : Relation) (key : Signature) : List Signature :=
  (s.get? key).elim [] fun d => d.neighbours r

theorem listed_of_get? {s : DigestStore} {key : Signature} {d : Digest}
    (h : s.get? key = some d) (r : Relation) : s.listed r key = d.neighbours r := by
  rw [listed, h, Option.elim_some]

theorem lists_of_answer {s : DigestStore} {r : Relation} {key other : Signature}
    {successors : List Signature} (h : (s.lookup r).answer key = .ok successors)
    (hother : other ∈ successors) : s.Lists r key other := by
  cases hget : s.get? key with
  | none =>
    simp only [lookup, hget] at h
    cases h
  | some d =>
    rw [answer_lookup hget] at h
    obtain rfl := Except.ok.inj h
    exact ⟨d, hget, hother⟩

end DigestStore
end CallImpact
