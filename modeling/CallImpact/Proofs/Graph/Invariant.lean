import CallImpact.Proofs.Graph.Innermost

/-!
# What every stage of a build keeps

A build adds one vertex or one reference at a time.  Each of these steps keeps the
two graphs transposes of each other over the same vertices, the numbers of the
descriptors exact, and the edges distinct.  The check for an edge that is there
looks at the call graph alone, and nothing but the builder keeps a function from
referring to itself; both go through because references come from the owners of
occurrences, which are vertices.
-/

namespace CallImpact
namespace FunctionGraph

/-- The two graphs and the numbers of the descriptors agree. -/
structure WellFormed (g : FunctionGraph) : Prop where
  same_vertices : g.callerGraph.vertices = g.callGraph.vertices
  /-- A descriptor has a number exactly if it is the one of that vertex. -/
  indexOf_iff : ∀ d v, g.indexOf d = some v ↔
    (g.vertices.map LocatedFunction.descriptor)[v]? = some d
  transposed : g.callerGraph.edges = g.callGraph.edges.map Prod.swap
  edges_nodup : g.callGraph.edges.Nodup
  no_self_edge : ∀ e ∈ g.callGraph.edges, e.1 ≠ e.2
  ends_lt : ∀ e ∈ g.callGraph.edges, e.1 < g.callGraph.order ∧ e.2 < g.callGraph.order

theorem getElem?_descriptors_iff {g : FunctionGraph} {v : Nat} {d : Descriptor} :
    (g.vertices.map LocatedFunction.descriptor)[v]? = some d ↔
      ∃ f, g.vertices[v]? = some f ∧ f.descriptor = d := by
  rw [List.getElem?_map, Option.map_eq_some_iff]

namespace WellFormed

variable {g : FunctionGraph}

theorem indexOf_eq_some_iff (hg : g.WellFormed) {d : Descriptor} {v : Nat} :
    g.indexOf d = some v ↔ ∃ f, g.vertices[v]? = some f ∧ f.descriptor = d :=
  (hg.indexOf_iff d v).trans getElem?_descriptors_iff

theorem indexOf_of_getElem? (hg : g.WellFormed) {v : Nat} {f : LocatedFunction}
    (h : g.vertices[v]? = some f) : g.indexOf f.descriptor = some v :=
  hg.indexOf_eq_some_iff.mpr ⟨f, h, rfl⟩

/-- Vertices with the same descriptor have the same number. -/
theorem vertex_unique (hg : g.WellFormed) {u v : Nat} {f f' : LocatedFunction}
    (hf : g.vertices[u]? = some f) (hf' : g.vertices[v]? = some f')
    (hsame : f.descriptor = f'.descriptor) : u = v := by
  have hu := hg.indexOf_of_getElem? hf
  rw [hsame, hg.indexOf_of_getElem? hf'] at hu
  exact (Option.some_inj.mp hu).symm

theorem indexOf_lt (hg : g.WellFormed) {d : Descriptor} {v : Nat}
    (h : g.indexOf d = some v) :
    v < g.callGraph.order := by
  have hv := (hg.indexOf_iff d v).mp h
  obtain ⟨hlt, -⟩ := List.getElem?_eq_some_iff.mp hv
  rwa [List.length_map] at hlt

theorem indexOf_eq_none (hg : g.WellFormed) {d : Descriptor}
    (h : g.indexOf d = none) :
    d ∉ g.vertices.map LocatedFunction.descriptor := by
  intro hd
  obtain ⟨v, hv⟩ := List.mem_iff_getElem?.mp hd
  have hsome := (hg.indexOf_iff d v).mpr hv
  rw [h] at hsome
  cases hsome

/-- No two vertices have the same descriptor. -/
theorem descriptors_nodup (hg : g.WellFormed) :
    (g.vertices.map LocatedFunction.descriptor).Nodup := by
  rw [List.nodup_iff_getElem?_ne_getElem?]
  intro i j hij hj heq
  obtain ⟨d, hd⟩ : ∃ d, (g.vertices.map LocatedFunction.descriptor)[j]? = some d :=
    ⟨_, List.getElem?_eq_getElem hj⟩
  have hi := (hg.indexOf_iff d i).mpr (heq.trans hd)
  have hj := (hg.indexOf_iff d j).mpr hd
  have hsame : some i = some j := hi.symm.trans hj
  injection hsame with hsame
  omega

theorem function?_eq_some_iff (hg : g.WellFormed) {d : Descriptor} {f : LocatedFunction} :
    g.function? d = some f ↔ f ∈ g.vertices ∧ f.descriptor = d := by
  rw [function?, Option.bind_eq_some_iff]
  constructor
  · rintro ⟨v, hd, hv⟩
    obtain ⟨f', hv', rfl⟩ := hg.indexOf_eq_some_iff.mp hd
    obtain rfl := Option.some_inj.mp (hv'.symm.trans hv)
    exact ⟨List.mem_of_getElem? hv', rfl⟩
  · rintro ⟨hf, rfl⟩
    obtain ⟨v, hv⟩ := List.mem_iff_getElem?.mp hf
    exact ⟨v, hg.indexOf_of_getElem? hv, hv⟩

theorem callerGraph_edges_nodup (hg : g.WellFormed) : g.callerGraph.edges.Nodup := by
  rw [hg.transposed]
  refine List.Pairwise.map Prod.swap (fun a b hab heq => hab ?_) hg.edges_nodup
  exact Prod.swap_inj.mp heq

end WellFormed

theorem wellFormed_empty : WellFormed {} where
  same_vertices := rfl
  indexOf_iff d v := by simp [indexOf, vertices]
  transposed := rfl
  edges_nodup := List.nodup_nil
  no_self_edge := by simp
  ends_lt := by simp

/-! ## Vertices -/

/-- A function whose descriptor is new gets the next number, and all other
descriptors keep theirs. -/
theorem wellFormed_addVertex {g : FunctionGraph} (hg : g.WellFormed)
    (f : LocatedFunction) :
    (g.addVertex f).2.WellFormed := by
  cases hf : g.indexOf f.descriptor with
  | some v =>
    rw [addVertex_of_known hf]
    exact hg
  | none =>
    have hnew := hg.indexOf_eq_none hf
    rw [addVertex_of_new hf]
    refine ⟨?_, ?_, hg.transposed, hg.edges_nodup, hg.no_self_edge, ?_⟩
    · simp only [Multigraph.addVertex, hg.same_vertices]
    · intro d v
      have hold := hg.indexOf_iff d v
      have hat := getElem?_concat_iff (y := d) (i := v) hnew
      simp only [indexOf, vertices, Multigraph.addVertex, Multigraph.order, List.map_append,
        List.map_cons, List.map_nil, List.length_map, List.lookup_cons] at hold hat ⊢
      rw [hat]
      by_cases hd : d = f.descriptor
      · simp only [hd, beq_self_eq_true, if_pos, Option.some.injEq]
        exact eq_comm
      · have hbeq : (d == f.descriptor) = false := by simpa using hd
        simp only [hbeq, if_neg hd]
        exact hold
    · intro e he
      have hlt := hg.ends_lt e he
      simp only [Multigraph.addVertex, Multigraph.order, List.length_append] at hlt ⊢
      omega

/-- A function has the number that it was given. -/
theorem indexOf_addVertex_self (g : FunctionGraph) (f : LocatedFunction) :
    (g.addVertex f).2.indexOf f.descriptor = some (g.addVertex f).1 := by
  cases hf : g.indexOf f.descriptor with
  | some v =>
    rw [addVertex_of_known hf]
    exact hf
  | none =>
    rw [addVertex_of_new hf]
    exact List.lookup_cons_self

/-- Descriptors keep their numbers when a vertex is added. -/
theorem indexOf_addVertex {g : FunctionGraph} {d : Descriptor} {v : Nat}
    (hd : g.indexOf d = some v) (f : LocatedFunction) :
    (g.addVertex f).2.indexOf d = some v := by
  cases hf : g.indexOf f.descriptor with
  | some w =>
    rw [addVertex_of_known hf]
    exact hd
  | none =>
    have hne : d ≠ f.descriptor := by
      rintro rfl
      rw [hd] at hf
      cases hf
    have hbeq : (d == f.descriptor) = false := by simpa using hne
    rw [addVertex_of_new hf, indexOf, List.lookup_cons, hbeq]
    exact hd

/-- After all functions were added every candidate has the number of its
descriptor. -/
theorem register_spec {g : FunctionGraph} (hg : g.WellFormed)
    (functions : List LocatedFunction) :
    (register g functions).2.WellFormed ∧
      (∀ c ∈ (register g functions).1,
        (register g functions).2.indexOf c.function.descriptor = some c.vertex) ∧
      ∀ d v, g.indexOf d = some v → (register g functions).2.indexOf d = some v := by
  induction functions generalizing g with
  | nil =>
    refine ⟨hg, ?_, fun d v hd => hd⟩
    intro c hc
    cases hc
  | cons f rest ih =>
    obtain ⟨hwf, hcandidates, hkept⟩ := ih (wellFormed_addVertex hg f)
    refine ⟨hwf, ?_, fun d v hd => hkept d v (indexOf_addVertex hd f)⟩
    intro c hc
    rcases List.mem_cons.mp hc with rfl | hc
    · exact hkept _ _ (indexOf_addVertex_self g f)
    · exact hcandidates c hc

/-! ## References -/

theorem mem_edges_addReference {g : FunctionGraph} {caller callee : Nat} {e : Nat × Nat} :
    e ∈ (g.addReference caller callee).callGraph.edges ↔
      e ∈ g.callGraph.edges ∨ e = (caller, callee) := by
  by_cases h : (caller, callee) ∈ g.callGraph.edges
  · rw [addReference_of_mem h]
    constructor
    · exact Or.inl
    · rintro (he | rfl)
      · exact he
      · exact h
  · rw [addReference_of_not_mem h]
    simp only [Multigraph.addEdge, List.mem_append, List.mem_singleton]

theorem vertices_addReference (g : FunctionGraph) (caller callee : Nat) :
    (g.addReference caller callee).vertices = g.vertices := by
  by_cases h : (caller, callee) ∈ g.callGraph.edges
  · rw [addReference_of_mem h]
  · rw [addReference_of_not_mem h]
    rfl

/-- A reference between two different vertices is added in both directions or in
neither. -/
theorem wellFormed_addReference {g : FunctionGraph} (hg : g.WellFormed)
    {caller callee : Nat} (hne : caller ≠ callee)
    (hcaller : caller < g.callGraph.order) (hcallee : callee < g.callGraph.order) :
    (g.addReference caller callee).WellFormed := by
  by_cases h : (caller, callee) ∈ g.callGraph.edges
  · rw [addReference_of_mem h]
    exact hg
  · rw [addReference_of_not_mem h]
    have hmem : ∀ e ∈ (g.callGraph.addEdge caller callee).edges,
        e ∈ g.callGraph.edges ∨ e = (caller, callee) := by
      intro e he
      rcases List.mem_append.mp he with he | he
      · exact Or.inl he
      · exact Or.inr (List.mem_singleton.mp he)
    refine ⟨hg.same_vertices, hg.indexOf_iff, ?_, ?_, ?_, ?_⟩
    · simp only [Multigraph.addEdge, hg.transposed, List.map_append, List.map_cons,
        List.map_nil, Prod.swap_prod_mk]
    · refine List.nodup_append.mpr ⟨hg.edges_nodup, List.nodup_singleton _, ?_⟩
      intro a ha b hb heq
      rw [List.mem_singleton.mp hb] at heq
      exact h (heq ▸ ha)
    · intro e he
      rcases hmem e he with he | rfl
      · exact hg.no_self_edge e he
      · exact hne
    · intro e he
      rcases hmem e he with he | rfl
      · exact hg.ends_lt e he
      · exact ⟨hcaller, hcallee⟩

/-- The references of a build run between different candidates. -/
theorem mem_references {limits : Limits} {functionFiles : List (SourceFile FunctionDecl)}
    {occurrenceFiles : List (SourceFile Occurrence)} {e : Nat × Nat}
    (h : e ∈ references limits functionFiles occurrenceFiles) :
    e.1 ≠ e.2 ∧
      (∃ c ∈ (register {} (functionsOf functionFiles)).1, c.vertex = e.1) ∧
      ∃ c ∈ (register {} (functionsOf functionFiles)).1, c.vertex = e.2 := by
  obtain ⟨c, hc, he⟩ := List.mem_flatMap.mp h
  obtain ⟨caller, hcaller, rfl⟩ := List.mem_map.mp he
  obtain ⟨hcaller, hne⟩ := List.mem_filter.mp hcaller
  refine ⟨of_decide_eq_true hne, ?_, c, hc, rfl⟩
  rw [referrers] at hcaller
  split at hcaller
  · cases hcaller
  · obtain ⟨entry, hentry, rfl⟩ := List.mem_map.mp hcaller
    obtain ⟨file, -, howned⟩ := List.mem_flatMap.mp (List.mem_filter.mp hentry).1
    obtain ⟨o, -, ho⟩ := List.mem_filterMap.mp howned
    obtain ⟨owner, howner, rfl⟩ := Option.map_eq_some_iff.mp ho
    obtain ⟨i, hi, -⟩ := innermostAt_of_enclosing? howner
    exact ⟨owner, (List.mem_filter.mp (List.mem_of_getElem? hi)).1, rfl⟩

/-! ## All stages -/

/-- The graphs that a build passes through: the empty graph, the graph after each
function, and then, without the references, the graph after each reference. -/
def stages (limits : Limits) (functionFiles : List (SourceFile FunctionDecl))
    (occurrenceFiles : List (SourceFile Occurrence)) : List FunctionGraph :=
  let functions := functionsOf functionFiles
  functions.scanl (fun g f => (addVertex g f).2) {} ++
    (references limits functionFiles occurrenceFiles).scanl
      (fun g e => g.addReference e.1 e.2) (register {} functions).2

theorem wellFormed_of_mem_stages (limits : Limits)
    (functionFiles : List (SourceFile FunctionDecl))
    (occurrenceFiles : List (SourceFile Occurrence)) :
    ∀ g ∈ stages limits functionFiles occurrenceFiles, g.WellFormed := by
  intro g hg
  rcases List.mem_append.mp hg with hg | hg
  · exact forall_mem_scanl wellFormed_empty
      (fun g hg f _ => wellFormed_addVertex hg f) g hg
  · obtain ⟨hwf, hcandidates, -⟩ :=
      register_spec wellFormed_empty (functionsOf functionFiles)
    -- the vertices stay the same, so the ends of later references are still vertices
    have hinv : ∀ g ∈ (references limits functionFiles occurrenceFiles).scanl
        (fun g e => addReference g e.1 e.2) (register {} (functionsOf functionFiles)).2,
        g.WellFormed ∧ g.vertices = (register {} (functionsOf functionFiles)).2.vertices := by
      apply forall_mem_scanl
      · exact ⟨hwf, rfl⟩
      · rintro g ⟨hg, hvertices⟩ e he
        obtain ⟨hne, ⟨c, hc, hcaller⟩, d, hd, hcallee⟩ := mem_references he
        have hlt : ∀ c ∈ (register {} (functionsOf functionFiles)).1,
            c.vertex < g.callGraph.order := by
          intro c hc
          have hbound := hwf.indexOf_lt (hcandidates c hc)
          rwa [Multigraph.order, show g.callGraph.vertices = _ from hvertices]
        constructor
        · exact wellFormed_addReference hg hne (hcaller ▸ hlt c hc) (hcallee ▸ hlt d hd)
        · rw [vertices_addReference, hvertices]
    exact (hinv g hg).1

theorem getLast?_stages (limits : Limits) (functionFiles : List (SourceFile FunctionDecl))
    (occurrenceFiles : List (SourceFile Occurrence)) :
    (stages limits functionFiles occurrenceFiles).getLast? =
      some (build limits functionFiles occurrenceFiles) := by
  rw [stages, List.getLast?_append, List.getLast?_scanl]
  rfl

/-- The graph of a build is well formed. -/
theorem wellFormed_build (limits : Limits) (functionFiles : List (SourceFile FunctionDecl))
    (occurrenceFiles : List (SourceFile Occurrence)) :
    (build limits functionFiles occurrenceFiles).WellFormed :=
  wellFormed_of_mem_stages limits functionFiles occurrenceFiles _
    (List.mem_of_getLast? (getLast?_stages limits functionFiles occurrenceFiles))

/-- At every stage of a build, the last of which is its result, the two graphs have
the same vertices and opposite edges, the numbers of the descriptors are exact, and
the edges are distinct and run between different vertices. -/
theorem stages_wellFormed (limits : Limits) (functionFiles : List (SourceFile FunctionDecl))
    (occurrenceFiles : List (SourceFile Occurrence)) :
    (stages limits functionFiles occurrenceFiles).getLast? =
        some (build limits functionFiles occurrenceFiles) ∧
      ∀ g ∈ stages limits functionFiles occurrenceFiles,
        g.WellFormed ∧
          (g.vertices.map LocatedFunction.descriptor).Nodup ∧
          (∀ d f, g.function? d = some f ↔ f ∈ g.vertices ∧ f.descriptor = d) ∧
          g.callerGraph.edges.Nodup := by
  refine ⟨getLast?_stages limits functionFiles occurrenceFiles, ?_⟩
  intro g hg
  have hwf := wellFormed_of_mem_stages limits functionFiles occurrenceFiles g hg
  exact ⟨hwf, hwf.descriptors_nodup, fun d f => hwf.function?_eq_some_iff,
    hwf.callerGraph_edges_nodup⟩

end FunctionGraph
end CallImpact
