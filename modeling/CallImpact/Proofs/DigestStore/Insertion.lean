import CallImpact.Proofs.DigestStore.Merging

/-!
# Inserting digests in any order, and again

Under a signature stands the function of the first digest with it.  Each of the two stored
lists begins with the list of that digest, as it is, and goes on with what the later digests
list besides, each signature once and in the order of first appearance.  So the order of the
digests decides only the order within the lists, and a digest that was inserted before changes
nothing.
-/

namespace CallImpact

namespace Digest

/-- The signatures of the second list that the first one lacks, each once, in the order of
their first appearance. -/
def unseen (signatures more : List Signature) : List Signature :=
  (more.filter fun s => decide (s ∉ signatures)).eraseDups

variable {d more : Digest} {signatures : List Signature} {s : Signature}

theorem mergeSignatures_append (signatures more more' : List Signature) :
    mergeSignatures signatures (more ++ more') =
      mergeSignatures (mergeSignatures signatures more) more' :=
  List.foldl_append

theorem mergeSignatures_singleton (signatures : List Signature) (s : Signature) :
    mergeSignatures signatures [s] = if s ∈ signatures then signatures else signatures ++ [s] :=
  rfl

theorem unseen_concat_of_mem (more : List Signature) (h : s ∈ signatures ∨ s ∈ more) :
    unseen signatures (more ++ [s]) = unseen signatures more := by
  rw [unseen, List.filter_append]
  by_cases hs : s ∈ signatures
  · have hnone : [s].filter (fun s => decide (s ∉ signatures)) = [] := by simp [hs]
    rw [hnone, List.append_nil, unseen]
  · have hone : [s].filter (fun s => decide (s ∉ signatures)) = [s] := by simp [hs]
    have hmem : s ∈ more.filter fun s => decide (s ∉ signatures) :=
      List.mem_filter.mpr ⟨h.resolve_left hs, decide_eq_true hs⟩
    rw [hone, eraseDups_concat, if_pos hmem, unseen]

theorem unseen_concat_of_not_mem {more : List Signature} (hs : s ∉ signatures)
    (hmore : s ∉ more) :
    unseen signatures (more ++ [s]) = unseen signatures more ++ [s] := by
  have hone : [s].filter (fun s => decide (s ∉ signatures)) = [s] := by simp [hs]
  have hnew : s ∉ more.filter fun s => decide (s ∉ signatures) :=
    fun hmem => hmore (List.mem_filter.mp hmem).1
  rw [unseen, List.filter_append, hone, eraseDups_concat, if_neg hnew, unseen]

/-- Merging keeps the first list and adds what it lacks of the second one. -/
theorem mergeSignatures_eq_append (signatures more : List Signature) :
    mergeSignatures signatures more = signatures ++ unseen signatures more := by
  induction more using List.reverseRecOn with
  | nil => simp [mergeSignatures, unseen]
  | append_singleton more s ih =>
    have hmem : s ∈ signatures ++ unseen signatures more ↔ s ∈ signatures ∨ s ∈ more := by
      rw [← ih]
      exact mem_mergeSignatures
    rw [mergeSignatures_append, ih, mergeSignatures_singleton]
    by_cases hs : s ∈ signatures ∨ s ∈ more
    · rw [if_pos (hmem.mpr hs), unseen_concat_of_mem more hs]
    · obtain ⟨hs', hmore⟩ := not_or.mp hs
      rw [if_neg (fun h => hs (hmem.mp h)), unseen_concat_of_not_mem hs' hmore,
        List.append_assoc]

theorem mergeSignatures_of_subset {more : List Signature} (h : more ⊆ signatures) :
    mergeSignatures signatures more = signatures := by
  have hnone : more.filter (fun s => decide (s ∉ signatures)) = [] := by
    rw [List.filter_eq_nil_iff]
    intro s hs
    simp [h hs]
  rw [mergeSignatures_eq_append, unseen, hnone, List.eraseDups_nil, List.append_nil]

/-- A digest that lists nothing new adds nothing. -/
theorem merge_of_subset (h : ∀ r, more.neighbours r ⊆ d.neighbours r) : d.merge more = d := by
  have hcallees : mergeSignatures d.callees more.callees = d.callees :=
    mergeSignatures_of_subset (h .calls)
  have hcallers : mergeSignatures d.callers more.callers = d.callers :=
    mergeSignatures_of_subset (h .callers)
  rw [merge, hcallees, hcallers]

theorem neighbours_merge (d more : Digest) (r : Relation) :
    (d.merge more).neighbours r = mergeSignatures (d.neighbours r) (more.neighbours r) := by
  cases r <;> rfl

/-- Merging digests one after the other merges their lists. -/
theorem neighbours_foldl_merge (d : Digest) (later : List Digest) (r : Relation) :
    (later.foldl merge d).neighbours r =
      mergeSignatures (d.neighbours r) (later.flatMap fun d' => d'.neighbours r) := by
  induction later generalizing d with
  | nil => rfl
  | cons first rest ih =>
    rw [List.foldl_cons, ih, neighbours_merge, List.flatMap_cons, mergeSignatures_append]

end Digest

namespace DigestStore

variable {s : DigestStore} {d stored : Digest} {digests : List Digest}

/-- An update that leaves the value under the key as it is changes nothing. -/
theorem updateEntries_of_lookup {key : Signature} {change : Digest → Digest} {fresh : Digest}
    {entries : List (Signature × Digest)} (hlookup : entries.lookup key = some d)
    (hchange : change d = d) : updateEntries key change fresh entries = entries := by
  induction entries with
  | nil => cases hlookup
  | cons entry rest ih =>
    obtain ⟨k, first⟩ := entry
    rw [updateEntries]
    by_cases hk : k = key
    · have hfirst : first = d := by simpa [List.lookup_cons, hk] using hlookup
      rw [if_pos hk, hfirst, hchange]
    · have hne : (key == k) = false := beq_false_of_ne (Ne.symm hk)
      have hrest : rest.lookup key = some d := by simpa [List.lookup_cons, hne] using hlookup
      rw [if_neg hk, ih hrest]

/-- A digest that lists nothing besides what is stored under its signature changes nothing. -/
theorem insert_of_get? (hstored : s.get? d.function.signature = some stored)
    (h : ∀ r, d.neighbours r ⊆ stored.neighbours r) : s.insert d = s := by
  have hentries : updateEntries d.function.signature (fun stored => stored.merge d) d s.entries =
      s.entries := updateEntries_of_lookup hstored (Digest.merge_of_subset h)
  obtain ⟨entries, hnodup⟩ := s
  rw [insert]
  congr 1

/-- A digest that was inserted before changes nothing. -/
theorem insert_ofList_of_mem (hd : d ∈ digests) : (ofList digests).insert d = ofList digests := by
  have hkey : d.function.signature ∈ (ofList digests).keys :=
    mem_keys_ofList_iff.mpr ⟨d, hd, rfl⟩
  obtain ⟨stored, hstored⟩ := mem_keys_iff.mp hkey
  apply insert_of_get? hstored
  intro r t ht
  have hlists : (ofList digests).Lists r d.function.signature t :=
    lists_ofList_iff.mpr ⟨d, hd, rfl, ht⟩
  obtain ⟨stored', hstored', ht'⟩ := hlists
  rw [hstored] at hstored'
  exact Option.some_inj.mp hstored' ▸ ht'

/-- What is listed under a signature does not depend on the order of the digests. -/
theorem lists_ofList_of_perm {digests' : List Digest} (h : digests.Perm digests')
    {r : Relation} {key other : Signature} :
    (ofList digests').Lists r key other ↔ (ofList digests).Lists r key other := by
  simp only [lists_ofList_iff, h.mem_iff]

/-- The keys of a store are the signatures of the digests inserted.  Under each of them stands
the function of the first digest with it, with the lists of that digest as they are and after
them what the later ones list besides, each signature once in the order of first appearance.
The order of the digests does not matter for what is listed, and inserting one of them again
changes nothing. -/
theorem ofList_merges (digests : List Digest) :
    ListsExactly (fun key => ∃ d ∈ digests, d.function.signature = key) (ofList digests).keys ∧
      (∀ key ∈ (ofList digests).keys, ∃ first later stored,
        digestsOf digests key = first :: later ∧
          (ofList digests).get? key = some stored ∧
          stored.function = first.function ∧ stored.function.signature = key ∧
          ∀ r, stored.neighbours r = first.neighbours r ++
            Digest.unseen (first.neighbours r) (later.flatMap fun d => d.neighbours r)) ∧
      (∀ digests', digests.Perm digests' → ∀ r key other,
        (ofList digests').Lists r key other ↔ (ofList digests).Lists r key other) ∧
      ∀ d ∈ digests, (ofList digests).insert d = ofList digests := by
  refine ⟨⟨(ofList digests).keys_nodup, fun key => mem_keys_ofList_iff⟩, ?_,
    fun digests' h r key other => lists_ofList_of_perm h, fun d hd => insert_ofList_of_mem hd⟩
  intro key hkey
  obtain ⟨stored, hstored⟩ := mem_keys_iff.mp hkey
  rw [get?_ofList] at hstored
  cases hdigests : digestsOf digests key with
  | nil =>
    rw [hdigests] at hstored
    cases hstored
  | cons first later =>
    have hfirst : first ∈ digestsOf digests key := hdigests ▸ List.mem_cons_self ..
    have hmerged : (ofList digests).get? key = some (later.foldl Digest.merge first) := by
      rw [get?_ofList, hdigests, Digest.mergeAll]
    refine ⟨first, later, _, rfl, hmerged, Digest.function_foldl_merge first later, ?_, ?_⟩
    · rw [Digest.function_foldl_merge]
      exact (mem_digestsOf.mp hfirst).2
    · intro r
      rw [Digest.neighbours_foldl_merge, Digest.mergeSignatures_eq_append]

/-- A digest of a free function `init` in a file. -/
def initDigest (path : String) (callees callers : List Signature) : Digest :=
  ⟨⟨.ofSpans "init" (.ofRows 0 1) (.ofRows 0 1), path⟩, callees, callers⟩

/-- Of two digests with one signature the first one gives the function and the beginning of
the lists, with its repetition, and the second one adds what is new, once.  It lists the same if
it comes first, and it changes nothing when it comes again. -/
theorem ofList_merges_inits :
    let first := initDigest "a.go" [⟨"::setup||"⟩, ⟨"::setup||"⟩] []
    let second := initDigest "b.go" [⟨"::load||"⟩, ⟨"::setup||"⟩, ⟨"::load||"⟩] [⟨"::main||"⟩]
    (∃ stored, (ofList [first, second]).get? ⟨"::init||"⟩ = some stored ∧
        stored.function = first.function ∧
        stored.callees = [⟨"::setup||"⟩, ⟨"::setup||"⟩, ⟨"::load||"⟩] ∧
        stored.callers = [⟨"::main||"⟩]) ∧
      (∀ r key other, (ofList [second, first]).Lists r key other ↔
        (ofList [first, second]).Lists r key other) ∧
      (ofList [first, second]).insert second = ofList [first, second] := by
  intro first second
  obtain ⟨-, hstored, hperm, hagain⟩ := ofList_merges [first, second]
  have hboth : digestsOf [first, second] ⟨"::init||"⟩ = [first, second] := by decide +kernel
  obtain ⟨first', later, stored, hsplit, hget, hfunction, -, hlists⟩ :=
    hstored ⟨"::init||"⟩ (by decide +kernel)
  rw [hboth] at hsplit
  obtain ⟨rfl, rfl⟩ := List.cons.inj hsplit
  refine ⟨⟨stored, hget, hfunction, ?_, ?_⟩, hperm _ (List.Perm.swap second first []),
    hagain second (by simp)⟩
  · exact (hlists .calls).trans (by decide +kernel)
  · exact (hlists .callers).trans (by decide +kernel)

end DigestStore
end CallImpact
