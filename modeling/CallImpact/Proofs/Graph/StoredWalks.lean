import CallImpact.Proofs.Graph.Digests
import CallImpact.Proofs.Walk.Renaming

/-!
# Walks over the store of a graph

Whatever the store of a graph lists under a signature is a key of it again, so a walk that
starts at a key finds everything it asks for.  If no two vertices share a signature, then a
walk over the store goes the way of the walk over the graph and has the same outcome, with
signatures in place of descriptors.
-/

namespace CallImpact
namespace FunctionGraph

open Walk

variable {g : FunctionGraph} {s : Signature}

theorem isSome_get?_digestStore_iff (g : FunctionGraph) (s : Signature) :
    (∃ d, g.digestStore.get? s = some d) ↔ s ∈ g.signatures := by
  rw [← DigestStore.mem_keys_iff, mem_keys_digestStore_iff]

/-! ## Nothing is missing -/

/-- What the store of a graph lists under a signature are signatures of vertices. -/
theorem closedUnder_digestStore (hg : g.WellFormed) (r : Relation) :
    ClosedUnder (g.digestStore.lookup r).answer {s | s ∈ g.signatures} := by
  intro s _ successors hanswer t ht
  have hlists := DigestStore.lists_of_answer hanswer ht
  obtain ⟨v, w, -, -, hw⟩ := (lists_digestStore_iff hg).mp hlists
  exact List.mem_of_getElem? hw

theorem exists_answer_digestStore (g : FunctionGraph) (r : Relation) :
    ∀ s ∈ {s | s ∈ g.signatures}, ∃ successors,
      (g.digestStore.lookup r).answer s = .ok successors := by
  intro s hs
  obtain ⟨d, hd⟩ := (isSome_get?_digestStore_iff g s).mpr hs
  exact ⟨d.neighbours r, DigestStore.answer_lookup hd r⟩

/-- Over the store of a built graph a report on the impact of a signature succeeds exactly if
some vertex has the signature.  From such a signature a walk without signals returns its
chains, and no walk at all fails because something is not stored. -/
theorem build_digestStore_closed (limits : Limits)
    (functionFiles : List (SourceFile FunctionDecl))
    (occurrenceFiles : List (SourceFile Occurrence)) (s : Signature) :
    let g := build limits functionFiles occurrenceFiles
    (s ∉ g.signatures → ∀ hops,
        g.digestStore.impact s hops = .error (.nodeNotFound s.text)) ∧
      (s ∈ g.signatures →
        (∀ hops, ∃ report, g.digestStore.impact s hops = .ok report) ∧
        (∀ r maxDepth, ∃ chains,
          ((g.digestStore.lookup r).walk { maxDepth } s).result = .ok chains) ∧
        ∀ r bounds node cause,
          ((g.digestStore.lookup r).walk bounds s).result ≠
            .error (.lookupFailed node cause)) := by
  intro g
  have hg : g.WellFormed := wellFormed_build limits functionFiles occurrenceFiles
  constructor
  · intro hs hops
    have hnone : g.digestStore.get? s = none := by
      rw [Option.eq_none_iff_forall_ne_some]
      intro d hd
      exact hs ((isSome_get?_digestStore_iff g s).mp ⟨d, hd⟩)
    rw [DigestStore.impact, hnone]
  · intro hs
    have hwalk : ∀ r maxDepth, ∃ chains,
        ((g.digestStore.lookup r).walk { maxDepth } s).result = .ok chains :=
      fun r maxDepth => (g.digestStore.lookup r).exists_walk_eq_ok
        (closedUnder_digestStore hg r) hs (exists_answer_digestStore g r) maxDepth
    refine ⟨?_, hwalk, ?_⟩
    · intro hops
      obtain ⟨d, hd⟩ := (isSome_get?_digestStore_iff g s).mpr hs
      obtain ⟨chains, hchains⟩ := hwalk .callers (some hops.toNat)
      refine ⟨⟨d, ChainTree.ofChains chains⟩, ?_⟩
      rw [DigestStore.impact, hd]
      simp only [hchains]
    · intro r bounds node cause hresult
      obtain ⟨hnode, hcause⟩ := (g.digestStore.lookup r).hasReason_of_walk
        (closedUnder_digestStore hg r) hs hresult
      obtain ⟨successors, ha⟩ := exists_answer_digestStore g r node hnode
      cases hcause.symm.trans ha

/-- Two files declare the same three functions, so each of their signatures is shared.  The
report on the third one succeeds, and there is none on a function that is not declared. -/
theorem build_digestStore_closed_shared :
    (build {} [threeFunctions "m.go", threeFunctions "n.go"]
        [threeOccurrences "m.go"]).digestStore.impact ⟨"::gamma||"⟩ 2 =
        .error (.nodeNotFound "::gamma||") ∧
      (∃ report, (build {} [threeFunctions "m.go", threeFunctions "n.go"]
        [threeOccurrences "m.go"]).digestStore.impact ⟨"::beta||"⟩ 2 = .ok report) ∧
      ∃ chains, (((build {} [threeFunctions "m.go", threeFunctions "n.go"]
        [threeOccurrences "m.go"]).digestStore.lookup .callers).walk {} ⟨"::beta||"⟩).result =
          .ok chains := by
  obtain ⟨hunknown, -⟩ := build_digestStore_closed {}
    [threeFunctions "m.go", threeFunctions "n.go"] [threeOccurrences "m.go"] ⟨"::gamma||"⟩
  obtain ⟨-, hknown⟩ := build_digestStore_closed {}
    [threeFunctions "m.go", threeFunctions "n.go"] [threeOccurrences "m.go"] ⟨"::beta||"⟩
  obtain ⟨hreport, hwalk, -⟩ := hknown (by decide +kernel)
  exact ⟨hunknown (by decide +kernel) 2, hreport 2, hwalk .callers none⟩

/-! ## The same walks -/

theorem get?_digestStore_of_nodup (hdistinct : g.signatures.Nodup) {f : LocatedFunction}
    (hf : f ∈ g.vertices) :
    g.digestStore.get? f.signature = some (g.neighbourhood f).digest := by
  have hdigest : (g.neighbourhood f).digest ∈ g.digests := List.mem_map_of_mem hf
  have hkey : (g.neighbourhood f).digest.function.signature = f.signature := rfl
  rw [← map_signature_digests] at hdistinct
  rw [digestStore, ← hkey]
  exact DigestStore.get?_ofList_of_nodup hdistinct hdigest

/-- If no two vertices share a signature, the store answers for the signatures of the
vertices as the graph does for their descriptors. -/
theorem renames_digestStore (hg : g.WellFormed) (hdistinct : g.signatures.Nodup)
    (r : Relation) :
    Renames Descriptor.signature {d | d ∈ g.vertices.map LocatedFunction.descriptor}
      (g.lookup r).answer (g.digestStore.lookup r).answer where
  closed := by
    intro d _ successors hanswer e he
    obtain rfl := Except.ok.inj hanswer
    obtain ⟨f, hf, rfl⟩ := List.mem_map.mp he
    obtain ⟨v, w, -, hw, -⟩ := (mem_neighbours_iff hg).mp hf
    exact List.mem_map_of_mem (List.mem_of_getElem? hw)
  injOn := by
    intro d hd e he heq
    obtain ⟨f, hf, rfl⟩ := List.mem_map.mp hd
    obtain ⟨f', hf', rfl⟩ := List.mem_map.mp he
    rw [List.inj_on_of_nodup_map hdistinct hf hf' heq]
  answer_eq := by
    intro d hd
    obtain ⟨f, hf, rfl⟩ := List.mem_map.mp hd
    have hget := get?_digestStore_of_nodup hdistinct hf
    have hgraph : (g.lookup r).answer f.descriptor =
        .ok ((g.neighbours f.descriptor r).map LocatedFunction.descriptor) := rfl
    refine (DigestStore.answer_lookup hget r).trans ?_
    rw [neighbours_digest, hgraph, Except.map, List.map_map]
    rfl

/-- If no two vertices share a signature, a walk over the store has the outcome of the walk
over the graph, whatever its bounds are. -/
theorem walk_digestStore (hg : g.WellFormed) (hdistinct : g.signatures.Nodup)
    (bounds : Bounds) (r : Relation) {f : LocatedFunction} (hf : f ∈ g.vertices) :
    (g.digestStore.lookup r).walk bounds f.signature =
      (g.walk bounds r f.descriptor).map Descriptor.signature := by
  have hmem : f.descriptor ∈ g.vertices.map LocatedFunction.descriptor :=
    List.mem_map_of_mem hf
  have hwalk := Lookup.walk_map (renames_digestStore hg hdistinct r) bounds hmem
  exact hwalk

/-- If no two vertices of a built graph share a signature, then a walk over its store
returns the chains of the walk over the graph, in their order, with signatures in place of
descriptors. -/
theorem build_digestStore_walks_like_graph (limits : Limits)
    (functionFiles : List (SourceFile FunctionDecl))
    (occurrenceFiles : List (SourceFile Occurrence)) :
    let g := build limits functionFiles occurrenceFiles
    g.signatures.Nodup → ∀ f ∈ g.vertices, ∀ r maxDepth, ∃ chains,
      (g.walk { maxDepth } r f.descriptor).result = .ok chains ∧
        ((g.digestStore.lookup r).walk { maxDepth } f.signature).result =
          .ok (chains.map fun chain => chain.map Descriptor.signature) := by
  intro g hdistinct f hf r maxDepth
  have hg : g.WellFormed := wellFormed_build limits functionFiles occurrenceFiles
  have hmem : f.descriptor ∈ g.vertices.map LocatedFunction.descriptor :=
    List.mem_map_of_mem hf
  obtain ⟨chains, hchains⟩ := (g.lookup r).exists_walk_eq_ok
    (renames_digestStore hg hdistinct r).closed hmem (fun d _ => ⟨_, rfl⟩) maxDepth
  refine ⟨chains, hchains, ?_⟩
  rw [walk_digestStore hg hdistinct { maxDepth } r hf, Outcome.map]
  have hwalk : (g.walk { maxDepth } r f.descriptor).result = .ok chains := hchains
  rw [hwalk]
  rfl

/-- Over the store of three functions the first signature leads to the third one directly
and through the second one. -/
theorem build_digestStore_walks_like_graph_three :
    (((build {} [threeFunctions "m.go"] [threeOccurrences "m.go"]).digestStore.lookup
        .calls).walk {} ⟨"::main||"⟩).result =
      .ok [[⟨"::main||"⟩, ⟨"::alpha||"⟩, ⟨"::beta||"⟩], [⟨"::main||"⟩, ⟨"::beta||"⟩]] := by
  obtain ⟨chains, hgraph, hstore⟩ := build_digestStore_walks_like_graph {}
    [threeFunctions "m.go"] [threeOccurrences "m.go"] (by decide +kernel)
    ⟨.ofSpans "main" (.ofRows 0 5) (.ofRows 0 5), "m.go"⟩ (by decide +kernel) .calls none
  have hsignatures : ((build {} [threeFunctions "m.go"] [threeOccurrences "m.go"]).walk {}
      .calls ⟨"m.go", .ofRows 0 5, ⟨"::main||"⟩⟩).result.toOption.map
        (fun chains => chains.map fun chain => chain.map Descriptor.signature) =
      some [[⟨"::main||"⟩, ⟨"::alpha||"⟩, ⟨"::beta||"⟩], [⟨"::main||"⟩, ⟨"::beta||"⟩]] := by
    decide +kernel
  have hstart : LocatedFunction.descriptor
      ⟨.ofSpans "main" (.ofRows 0 5) (.ofRows 0 5), "m.go"⟩ =
        ⟨"m.go", .ofRows 0 5, ⟨"::main||"⟩⟩ := by decide +kernel
  rw [hstart] at hgraph
  rw [hgraph] at hsignatures
  exact hstore.trans (congrArg Except.ok (Option.some_inj.mp hsignatures))

end FunctionGraph
end CallImpact
