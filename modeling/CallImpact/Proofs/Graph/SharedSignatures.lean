import CallImpact.Proofs.Graph.StoredWalks
import CallImpact.Proofs.Walk.SimplePaths

/-!
# Neighbours that share a signature

The store of a graph keeps the first list of neighbours that comes under a signature as it is
and merges later ones into it without repetitions.  Neighbours are different vertices, but they
may share a signature, so the first list may repeat one.  Such repetitions are kept, and they
are the only ones: a stored list repeats a signature exactly if it belongs to two neighbours of
the first vertex (`RepeatsNeighbour`), and a walk over the store lists a chain twice exactly if
some step of a chain leads to a repeated signature.
-/

namespace CallImpact
namespace FunctionGraph

open Walk

/-- The first vertex with the one signature has two neighbours with the other one. -/
def RepeatsNeighbour (g : FunctionGraph) (r : Relation) (s t : Signature) : Prop :=
  ∃ w w', w ≠ w' ∧ (g.signatures.idxOf s, w) ∈ g.edges r ∧
    (g.signatures.idxOf s, w') ∈ g.edges r ∧
    g.signatures[w]? = some t ∧ g.signatures[w']? = some t

variable {g : FunctionGraph} {r : Relation} {s t : Signature} {d : Digest}
  {f : LocatedFunction}

/-! ## Stored lists -/

/-- Among the signatures of the neighbours of the first vertex those are repeated that two of
them share. -/
theorem count_neighbours_le_one_iff (hg : g.WellFormed)
    (hf : g.vertices[g.signatures.idxOf s]? = some f) :
    ((g.neighbours f.descriptor r).map LocatedFunction.signature).count t ≤ 1 ↔
      ¬ g.RepeatsNeighbour r s t := by
  have hnodup : (g.neighbours f.descriptor r).Nodup :=
    (nodup_descriptors_neighbours hg f.descriptor r).of_map _
  simp only [count_map_le_one_iff hnodup, mem_neighbours_of_getElem? hg hf]
  constructor
  · rintro hone ⟨w, w', hne, hedge, hedge', hw, hw'⟩
    obtain ⟨n, hn, hsame⟩ := (getElem?_signatures g w).mp hw
    obtain ⟨n', hn', hsame'⟩ := (getElem?_signatures g w').mp hw'
    obtain rfl := hone n ⟨w, hn, hedge⟩ n' ⟨w', hn', hedge'⟩ hsame hsame'
    exact hne (hg.vertex_unique hn hn' rfl)
  · rintro hnone n ⟨w, hw, hedge⟩ n' ⟨w', hw', hedge'⟩ hsame hsame'
    by_contra hne
    refine hnone ⟨w, w', ?_, hedge, hedge', (getElem?_signatures g w).mpr ⟨n, hw, hsame⟩,
      (getElem?_signatures g w').mpr ⟨n', hw', hsame'⟩⟩
    rintro rfl
    exact hne (Option.some_inj.mp (hw.symm.trans hw'))

/-- What is stored under a signature repeats what two neighbours of its first vertex share. -/
theorem count_stored_le_one_iff (hg : g.WellFormed) (hd : g.digestStore.get? s = some d)
    (r : Relation) (t : Signature) :
    (d.neighbours r).count t ≤ 1 ↔ ¬ g.RepeatsNeighbour r s t := by
  have hs : s ∈ g.signatures := (isSome_get?_digestStore_iff g s).mp ⟨d, hd⟩
  obtain ⟨f, hf⟩ : ∃ f, g.vertices[g.signatures.idxOf s]? = some f := by
    refine ⟨_, List.getElem?_eq_getElem ?_⟩
    rw [← List.length_map LocatedFunction.signature]
    exact List.idxOf_lt_length_of_mem hs
  have hfirst : g.digests.find? (fun d' => decide (d'.function.signature = s)) =
      some (g.neighbourhood f).digest := by
    rw [signatures, getElem?_idxOf_map] at hf
    rw [digests, List.find?_map]
    exact congrArg (Option.map fun f => (g.neighbourhood f).digest) hf
  rw [DigestStore.count_le_one_iff_of_get?_ofList hd hfirst, neighbours_digest]
  exact count_neighbours_le_one_iff hg hf

theorem nodup_stored_iff (hg : g.WellFormed) (hd : g.digestStore.get? s = some d)
    (r : Relation) :
    (d.neighbours r).Nodup ↔ ∀ t, ¬ g.RepeatsNeighbour r s t := by
  rw [List.nodup_iff_count_le_one]
  exact forall_congr' fun t => count_stored_le_one_iff hg hd r t

/-! ## Walks over the store -/

theorem exists_listsPaths_digestStore (hg : g.WellFormed) (r : Relation)
    (maxDepth : Option Nat) (hs : s ∈ g.signatures) :
    ∃ chains, ((g.digestStore.lookup r).walk { maxDepth } s).result = .ok chains ∧
      ListsPaths (g.digestStore.listed r) maxDepth s [] s chains := by
  have hanswer : ∀ n ∈ {n | n ∈ g.signatures},
      (g.digestStore.lookup r).answer n = .ok (g.digestStore.listed r n) := by
    intro n hn
    obtain ⟨d, hd⟩ := (isSome_get?_digestStore_iff g n).mpr hn
    rw [DigestStore.answer_lookup hd, DigestStore.listed_of_get? hd]
  have hclosed : ∀ n ∈ {n | n ∈ g.signatures}, ∀ m ∈ g.digestStore.listed r n,
      m ∈ {n | n ∈ g.signatures} :=
    fun n hn => closedUnder_digestStore hg r n hn _ (hanswer n hn)
  exact Lookup.exists_listsPaths_walk hanswer hclosed hs maxDepth

/-- A step of a chain over the store is listed once exactly if no two neighbours share its
end. -/
theorem count_listed_eq_one_iff (hg : g.WellFormed) (ht : t ∈ g.digestStore.listed r s) :
    (g.digestStore.listed r s).count t = 1 ↔ ¬ g.RepeatsNeighbour r s t := by
  have hpos := List.count_pos_iff.mpr ht
  cases hd : g.digestStore.get? s with
  | none =>
    rw [DigestStore.listed, hd] at ht
    cases ht
  | some d =>
    rw [← count_stored_le_one_iff hg hd, ← DigestStore.listed_of_get? hd]
    omega

/-- A list in the store of a built graph repeats a signature exactly if the first vertex with
the signature under which it is stored has two neighbours with it.  From a stored signature a
walk returns its chains, whatever its depth bound is, and it returns a chain twice exactly if
there is such a repetition at a step of a chain. -/
theorem build_stored_repetitions (limits : Limits)
    (functionFiles : List (SourceFile FunctionDecl))
    (occurrenceFiles : List (SourceFile Occurrence)) :
    let g := build limits functionFiles occurrenceFiles
    (∀ s d r, g.digestStore.get? s = some d →
        ((d.neighbours r).Nodup ↔ ∀ t, ¬ g.RepeatsNeighbour r s t)) ∧
      ∀ s ∈ g.signatures, ∀ r maxDepth, ∃ chains,
        ((g.digestStore.lookup r).walk { maxDepth } s).result = .ok chains ∧
          (chains.Nodup ↔
            ∀ chain ∈ chains, chain.IsChain fun a b => ¬ g.RepeatsNeighbour r a b) := by
  intro g
  have hg : g.WellFormed := wellFormed_build limits functionFiles occurrenceFiles
  refine ⟨fun s d r hd => nodup_stored_iff hg hd r, fun s hs r maxDepth => ?_⟩
  obtain ⟨chains, hchains, hlists⟩ := exists_listsPaths_digestStore hg r maxDepth hs
  refine ⟨chains, hchains, hlists.nodup_iff.trans ?_⟩
  refine forall₂_congr fun chain hchain => ?_
  have hfull := continues_start_iff.mp ((hlists.mem_iff chain).mp hchain)
  exact isChain_congr hfull.linked fun a b hb => count_listed_eq_one_iff hg hb

/-- A function and, in two other files, two functions of one name. -/
def mainAndInits : List (SourceFile FunctionDecl) :=
  [⟨"m.go", .unknown, [.ofSpans "main" (.ofRows 0 5) (.ofRows 0 5)]⟩,
    ⟨"a.go", .unknown, [.ofSpans "init" (.ofRows 0 2) (.ofRows 0 2)]⟩,
    ⟨"b.go", .unknown, [.ofSpans "init" (.ofRows 0 2) (.ofRows 0 2)]⟩]

/-- An occurrence by which the first function refers to both others. -/
def initOccurrence : List (SourceFile Occurrence) :=
  [⟨"m.go", .unknown, [{ text := "init", span := .ofRows 2 2 }]⟩]

/-- The first function refers to two functions with one signature. -/
theorem build_stored_repetitions_inits :
    let g := build {} mainAndInits initOccurrence
    g.RepeatsNeighbour .calls ⟨"::main||"⟩ ⟨"::init||"⟩ ∧
      (∃ d, g.digestStore.get? ⟨"::main||"⟩ = some d ∧ ¬ (d.neighbours .calls).Nodup) ∧
      ∃ chains, ((g.digestStore.lookup .calls).walk {} ⟨"::main||"⟩).result = .ok chains ∧
        ¬ chains.Nodup := by
  intro g
  have hrepeats : g.RepeatsNeighbour .calls ⟨"::main||"⟩ ⟨"::init||"⟩ :=
    ⟨1, 2, by decide, by decide +kernel, by decide +kernel, by decide +kernel, by decide +kernel⟩
  obtain ⟨hstored, hwalks⟩ := build_stored_repetitions {} mainAndInits initOccurrence
  have hmain : (⟨"::main||"⟩ : Signature) ∈ g.signatures := by decide +kernel
  obtain ⟨d, hd⟩ := (isSome_get?_digestStore_iff g _).mpr hmain
  obtain ⟨chains, hchains, hnodup⟩ := hwalks _ hmain .calls none
  refine ⟨hrepeats, ⟨d, hd, fun h => (hstored _ d .calls hd).mp h _ hrepeats⟩, chains, hchains, ?_⟩
  intro h
  have hfound : ((g.digestStore.lookup .calls).walk {} ⟨"::main||"⟩).result.toOption.any
      (fun found => decide ([⟨"::main||"⟩, ⟨"::init||"⟩] ∈ found)) = true := by
    decide +kernel
  rw [hchains] at hfound
  have hsteps := hnodup.mp h _ (of_decide_eq_true hfound)
  exact (List.isChain_cons_cons.mp hsteps).1 hrepeats

/-- The signature of the two functions is stored twice under the one that refers to them, and a
walk over the store lists the chain to it twice. -/
theorem build_stores_shared_signature_twice :
    let g := build {} mainAndInits initOccurrence
    g.digestStore.listed .calls ⟨"::main||"⟩ = [⟨"::init||"⟩, ⟨"::init||"⟩] ∧
      ((g.digestStore.lookup .calls).walk {} ⟨"::main||"⟩).result.toOption =
        some [[⟨"::main||"⟩, ⟨"::init||"⟩], [⟨"::main||"⟩, ⟨"::init||"⟩]] := by
  decide +kernel

end FunctionGraph
end CallImpact
