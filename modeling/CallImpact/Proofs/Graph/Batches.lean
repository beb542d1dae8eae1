import CallImpact.Proofs.DigestStore.Insertion
import CallImpact.Proofs.Graph.Neighbours

/-!
# The store of a graph, batch by batch

The digests of a graph are cut into batches of one size.  Put together again they are all
digests in the order of the vertices.  A worker that inserts the batches in order arrives at the
store of the graph, also if it inserts any of them again as often as it likes before it goes on.

For a size that no allocation has room for there are no batches at all, not even of a graph
without functions.
-/

namespace CallImpact

/-! ## Lists cut into parts -/

/-- No part is empty or larger than the size, and only the last part may be smaller. -/
structure CutBy {α : Type} (size : Nat) (parts : List (List α)) : Prop where
  ne_nil : ∀ part ∈ parts, part ≠ []
  length_le : ∀ part ∈ parts, part.length ≤ size
  length_eq : ∀ part ∈ parts.dropLast, part.length = size

variable {α : Type} {size : Nat} {part current list : List α} {parts : List (List α)}

theorem cutBy_nil : CutBy size ([] : List (List α)) where
  ne_nil := List.forall_mem_nil _
  length_le := List.forall_mem_nil _
  length_eq := List.forall_mem_nil _

theorem cutBy_singleton (hpart : part ≠ []) (hlength : part.length ≤ size) :
    CutBy size [part] where
  ne_nil := List.forall_mem_singleton.mpr hpart
  length_le := List.forall_mem_singleton.mpr hlength
  length_eq := List.forall_mem_nil _

/-- A part of the full size may stand before all others. -/
theorem CutBy.cons (h : CutBy size parts) (hpart : part ≠ []) (hlength : part.length = size) :
    CutBy size (part :: parts) where
  ne_nil := List.forall_mem_cons.mpr ⟨hpart, h.ne_nil⟩
  length_le := List.forall_mem_cons.mpr ⟨hlength.le, h.length_le⟩
  length_eq := by
    cases parts with
    | nil => exact List.forall_mem_nil _
    | cons next rest =>
      rw [List.dropLast_cons_cons]
      exact List.forall_mem_cons.mpr ⟨hlength, h.length_eq⟩

/-- While a batch is filled it is smaller than the size. -/
theorem cutBy_fillBatches (h : current.length < size) :
    CutBy size (fillBatches size current list) := by
  -- the batch that is being filled stands in reverse
  induction list generalizing current with
  | nil =>
    rw [fillBatches]
    by_cases hcurrent : current = []
    · rw [hcurrent]
      exact cutBy_nil
    · rw [if_neg (by simpa using hcurrent)]
      apply cutBy_singleton
      · exact fun hnil => hcurrent (List.reverse_eq_nil_iff.mp hnil)
      · rw [List.length_reverse]
        exact h.le
  | cons x rest ih =>
    rw [fillBatches]
    by_cases hfull : current.length + 1 = size
    · rw [if_pos hfull]
      apply CutBy.cons
      · apply ih
        rw [List.length_nil]
        omega
      · simp
      · rw [List.length_reverse, List.length_cons, hfull]
    · rw [if_neg hfull]
      apply ih
      rw [List.length_cons]
      omega

theorem cutBy_batches (size : Nat) (list : List α) : CutBy (max size 1) (batches size list) := by
  apply cutBy_fillBatches
  rw [List.length_nil]
  omega

theorem flatten_batches (size : Nat) (list : List α) : (batches size list).flatten = list := by
  rw [batches, flatten_fillBatches, List.reverse_nil, List.nil_append]

theorem batches?_eq_none_iff {elementBytes : Nat} :
    batches? elementBytes size list = none ↔ maxAllocation < elementBytes * max size 1 := by
  simp [batches?, hasRoom]

theorem eq_batches_of_batches? {elementBytes : Nat}
    (h : batches? elementBytes size list = some parts) : parts = batches size list := by
  rw [batches?] at h
  split at h
  · exact (Option.some.inj h).symm
  · cases h

/-- Parts of a list without repetitions are different. -/
theorem CutBy.nodup (h : CutBy size parts) (hnodup : parts.flatten.Nodup) : parts.Nodup := by
  have hdisjoint := (List.nodup_flatten.mp hnodup).2
  apply List.Pairwise.imp_of_mem _ hdisjoint
  intro part other hpart _ hapart heq
  obtain ⟨x, hx⟩ := List.exists_mem_of_ne_nil part (h.ne_nil part hpart)
  exact hapart hx (heq ▸ hx)

/-! ## Inserting batches -/

namespace DigestStore

/-- Inserts the digests of a batch, in order. -/
def insertAll (s : DigestStore) (batch : List Digest) : DigestStore :=
  batch.foldl insert s

/-- A batch of digests that were all inserted before changes nothing. -/
theorem insertAll_of_subset {digests batch : List Digest} (h : batch ⊆ digests) :
    (ofList digests).insertAll batch = ofList digests := by
  induction batch with
  | nil => rfl
  | cons d rest ih =>
    obtain ⟨hd, hrest⟩ := List.cons_subset.mp h
    rw [insertAll, List.foldl_cons, insert_ofList_of_mem hd]
    exact ih hrest

theorem foldl_insertAll (batches : List (List Digest)) :
    batches.foldl insertAll empty = ofList batches.flatten :=
  List.foldl_flatten.symm

/-- Of the attempts to insert batches only the first one for each batch counts. -/
theorem foldl_insertAll_eraseDups (attempts : List (List Digest)) :
    attempts.eraseDups.foldl insertAll empty = attempts.foldl insertAll empty := by
  induction attempts using List.reverseRecOn with
  | nil => rfl
  | append_singleton attempts batch ih =>
    rw [eraseDups_concat, List.foldl_append, List.foldl_cons, List.foldl_nil]
    by_cases hbatch : batch ∈ attempts
    · rw [if_pos hbatch, ih, foldl_insertAll,
        insertAll_of_subset (List.sublist_flatten_of_mem hbatch).subset]
    · rw [if_neg hbatch, List.foldl_append, List.foldl_cons, List.foldl_nil, ih]

end DigestStore

namespace FunctionGraph

theorem nodup_digests {g : FunctionGraph} (hg : g.WellFormed) : g.digests.Nodup := by
  have hdescriptors : g.digests.map (fun d => d.function.descriptor) =
      g.vertices.map LocatedFunction.descriptor := by
    rw [digests, List.map_map]
    rfl
  apply List.Nodup.of_map fun d => d.function.descriptor
  rw [hdescriptors]
  exact hg.descriptors_nodup

/-- There are no batches of the digests of a built graph exactly if a full batch does not fit
into an allocation.  Otherwise the digests stay what they are and in the order of the
vertices.  No batch is empty, all but the last one have the size, or one digest each for the size
zero, and no batch comes twice.  Inserting them in order into an empty store gives the store of
the graph, and so does every sequence of attempts in which the batches appear in order, however
often those that appeared are tried again. -/
theorem build_digestBatches (limits : Limits) (functionFiles : List (SourceFile FunctionDecl))
    (occurrenceFiles : List (SourceFile Occurrence)) (digestBytes : Nat) (size : UInt64) :
    let g := build limits functionFiles occurrenceFiles
    (g.digestBatches? digestBytes size = none ↔
        maxAllocation < digestBytes * max size.toNat 1) ∧
      ∀ batches, g.digestBatches? digestBytes size = some batches →
        batches.flatten = g.vertices.map (fun f => (g.neighbourhood f).digest) ∧
          CutBy (max size.toNat 1) batches ∧ batches.Nodup ∧
          batches.foldl DigestStore.insertAll .empty = g.digestStore ∧
          ∀ attempts : List (List Digest), attempts.eraseDups = batches →
            attempts.foldl DigestStore.insertAll .empty = g.digestStore := by
  intro g
  have hg : g.WellFormed := wellFormed_build limits functionFiles occurrenceFiles
  refine ⟨batches?_eq_none_iff, fun parts hparts => ?_⟩
  obtain rfl := eq_batches_of_batches? hparts
  have hflatten : (batches size.toNat g.digests).flatten = g.digests := flatten_batches _ _
  have hcut : CutBy (max size.toNat 1) (batches size.toNat g.digests) := cutBy_batches _ _
  have hstore : (batches size.toNat g.digests).foldl DigestStore.insertAll .empty =
      g.digestStore := by
    rw [DigestStore.foldl_insertAll, hflatten, digestStore]
  refine ⟨hflatten, hcut, hcut.nodup ?_, hstore, ?_⟩
  · rw [hflatten]
    exact nodup_digests hg
  · intro attempts hattempts
    rw [← DigestStore.foldl_insertAll_eraseDups, hattempts, hstore]

/-- Three digests make a batch of two and a batch of one, and the first batch may be inserted
three times. -/
theorem build_digestBatches_three :
    let g := build {} [threeFunctions "m.go"] [threeOccurrences "m.go"]
    ∃ first second, g.digestBatches? 256 2 = some [first, second] ∧ first.length = 2 ∧
      second.length = 1 ∧ [first, first, second, first].eraseDups = [first, second] ∧
      [first, first, second, first].foldl DigestStore.insertAll .empty = g.digestStore := by
  intro g
  have hbatches : g.digestBatches? 256 2 = some [g.digests.take 2, g.digests.drop 2] := by
    decide +kernel
  obtain ⟨-, -, -, -, hretry⟩ :=
    (build_digestBatches {} [threeFunctions "m.go"] [threeOccurrences "m.go"] 256 2).2 _ hbatches
  have hattempts : [g.digests.take 2, g.digests.take 2, g.digests.drop 2,
      g.digests.take 2].eraseDups = [g.digests.take 2, g.digests.drop 2] := by decide +kernel
  exact ⟨_, _, hbatches, by decide +kernel, by decide +kernel, hattempts, hretry _ hattempts⟩

/-- The graph without functions has no digests, but no batches of the greatest size either. -/
theorem digestBatches_greatest_size :
    let g := build {} [] []
    g.digests = [] ∧
      ¬ ∃ digestBytes > 0, (g.digestBatches? digestBytes 18446744073709551615).isSome = true := by
  intro g
  refine ⟨rfl, ?_⟩
  rintro ⟨digestBytes, hbytes, hsome⟩
  have hnone : g.digestBatches? digestBytes 18446744073709551615 = none := by
    have hmax : max (18446744073709551615 : UInt64).toNat 1 = 18446744073709551615 := rfl
    rw [digestBatches?, batches?_eq_none_iff, hmax, maxAllocation]
    omega
  rw [hnone] at hsome
  cases hsome

end FunctionGraph
end CallImpact
