import CallImpact.Proofs.Graph.Chains
import CallImpact.Proofs.Walk.Depths

/-!
# What queries answer

Going one hop reads the neighbours of a function from the table, and going along chains walks
over descriptors, which are then resolved.  A walk over a built graph comes to descriptors of
vertices only, so that they are all resolved and no query fails.  As no function is a neighbour
of itself, the chains of one hop are the function with each of its neighbours.
-/

namespace CallImpact
namespace FunctionGraph

variable {g : FunctionGraph} {f v : LocatedFunction} {r : Relation} {hops : UInt64}
  {chains : List (List LocatedFunction)}

/-- Every number is that of a vertex: a query may look for either of them. -/
theorem contains_eq_isSome_function? (hg : g.WellFormed) :
    g.contains f = (g.function? f.descriptor).isSome := by
  cases hindex : g.indexOf f.descriptor with
  | none =>
    rw [contains, function?, hindex, Option.bind_none, Option.isSome_none, Option.isSome_none]
  | some u =>
    obtain ⟨w, hw, -⟩ := hg.indexOf_eq_some_iff.mp hindex
    have hvertex : g.callGraph.vertex? u = some w := hw
    rw [contains, function?, hindex, Option.bind_some, hvertex, Option.isSome_some,
      Option.isSome_some]

theorem contains_iff (hg : g.WellFormed) :
    g.contains f = true ↔ f.descriptor ∈ g.vertices.map LocatedFunction.descriptor := by
  rw [contains_eq_isSome_function? hg, Option.isSome_iff_exists, List.mem_map]
  simp only [hg.function?_eq_some_iff]

/-! ## Resolving chains -/

theorem resolve_map_descriptor (hg : g.WellFormed) {fs : List LocatedFunction}
    (h : ∀ f ∈ fs, f ∈ g.vertices) :
    g.resolve (fs.map LocatedFunction.descriptor) = .ok fs := by
  induction fs with
  | nil => rfl
  | cons f fs ih =>
    obtain ⟨hf, hfs⟩ := List.forall_mem_cons.mp h
    have hfunction : g.function? f.descriptor = some f :=
      hg.function?_eq_some_iff.mpr ⟨hf, rfl⟩
    rw [List.map_cons, resolve, hfunction, ih hfs]
    rfl

theorem resolveAll_map_descriptors (hg : g.WellFormed)
    (h : ∀ c ∈ chains, ∀ f ∈ c, f ∈ g.vertices) :
    g.resolveAll (chains.map (List.map LocatedFunction.descriptor)) = .ok chains := by
  induction chains with
  | nil => rfl
  | cons c chains ih =>
    obtain ⟨hc, hchains⟩ := List.forall_mem_cons.mp h
    rw [List.map_cons, resolveAll, resolve_map_descriptor hg hc, ih hchains]
    rfl

/-! ## Where a walk goes -/

/-- The descriptors that a walk along a relation goes on to. -/
def successors (g : FunctionGraph) (r : Relation) (d : Descriptor) : List Descriptor :=
  (g.neighbours d r).map LocatedFunction.descriptor

theorem successors_eq_nil_iff {d : Descriptor} :
    g.successors r d = [] ↔ g.neighbours d r = [] :=
  List.map_eq_nil_iff

theorem mem_vertices_of_mem_neighbours (hg : g.WellFormed) {d : Descriptor}
    (h : f ∈ g.neighbours d r) : f ∈ g.vertices := by
  obtain ⟨-, w, -, hf, -⟩ := (mem_neighbours_iff hg).mp h
  exact List.mem_of_getElem? hf

theorem mem_descriptors_of_mem_successors (hg : g.WellFormed) {d e : Descriptor}
    (h : e ∈ g.successors r d) : e ∈ g.vertices.map LocatedFunction.descriptor := by
  obtain ⟨f, hf, rfl⟩ := List.mem_map.mp h
  exact List.mem_map_of_mem (mem_vertices_of_mem_neighbours hg hf)

/-- No function is a neighbour of itself. -/
theorem not_mem_successors_self (hg : g.WellFormed) (r : Relation) (d : Descriptor) :
    d ∉ g.successors r d := by
  intro h
  obtain ⟨v, w, hv, hw, hedge⟩ := (mem_descriptors_neighbours_iff hg).mp h
  obtain rfl := Option.some_inj.mp (hv.symm.trans hw)
  cases r with
  | calls => exact hg.no_self_edge _ hedge rfl
  | callers => exact hg.no_self_edge _ ((mem_edges_callers_iff hg).mp hedge) rfl

/-! ## Queries for chains -/

theorem neighbours_of_not_mem (hg : g.WellFormed)
    (hf : f.descriptor ∉ g.vertices.map LocatedFunction.descriptor) (r : Relation) :
    g.neighbours f.descriptor r = [] :=
  neighbours_of_unknown (Option.not_isSome_iff_eq_none.mp (mt (contains_iff hg).mp hf)) r

theorem query_chains_of_not_mem (hg : g.WellFormed)
    (hf : f.descriptor ∉ g.vertices.map LocatedFunction.descriptor) (r : Relation)
    (hops : UInt64) : g.query f r (.chains hops) = .ok (.chains []) := by
  rw [query, if_neg (mt (contains_iff hg).mp hf)]

section Known

variable (hg : g.WellFormed) (hv : v ∈ g.vertices) (hf : v.descriptor = f.descriptor)

include hg hv hf

/-- A query for chains answers with the vertices of the descriptors that the walk reports. -/
theorem query_chains_of_reports (hchains : ∀ c ∈ chains, ∀ w ∈ c, w ∈ g.vertices)
    (h : Walk.Reports (g.successors r) (some hops.toNat) v.descriptor
      (chains.map (List.map LocatedFunction.descriptor))) :
    g.query f r (.chains hops) = .ok (.chains chains) := by
  have hknown : g.contains f = true :=
    (contains_iff hg).mpr (hf ▸ List.mem_map_of_mem hv)
  have hwalk : (g.walk { maxDepth := some hops.toNat } r f.descriptor).result =
      .ok (chains.map (List.map LocatedFunction.descriptor)) :=
    Walk.Lookup.result_walk_of_reports (fun _ => rfl) (hf ▸ h)
  rw [query, if_pos hknown, relatedByChains, hwalk]
  simp only [resolveAll_map_descriptors hg hchains]
  rfl

/-- A query for the chains of a vertex answers with chains of vertices that begin with it. -/
theorem exists_query_chains (r : Relation) (hops : UInt64) :
    ∃ chains, g.query f r (.chains hops) = .ok (.chains chains) ∧
      ∀ c ∈ chains, c.head? = some v ∧ ∀ w ∈ c, w ∈ g.vertices := by
  obtain ⟨found, ⟨-, hfound⟩, hreports⟩ : ∃ found,
      ListsExactly (Walk.FullPath (g.successors r) (some hops.toNat) v.descriptor) found ∧
        Walk.Reports (g.successors r) (some hops.toNat) v.descriptor found :=
    Walk.exists_listsExactly_and_ends (fun d => nodup_descriptors_neighbours hg d r)
      (Or.inl rfl)
  -- the walk starts at a vertex, and comes to vertices only
  have hresolved : ∀ c ∈ found, ∃ fs : List LocatedFunction,
      (fs.head? = some v ∧ ∀ w ∈ fs, w ∈ g.vertices) ∧
        fs.map LocatedFunction.descriptor = c := by
    intro c hc
    have hpath := ((hfound c).mp hc).toSimplePath
    have hmem := hpath.forall_mem (List.mem_map_of_mem hv)
      fun _ _ _ he => mem_descriptors_of_mem_successors hg he
    obtain ⟨fs, hfs, rfl⟩ :=
      exists_map_eq_of_forall_mem fun d hd => List.mem_map.mp (hmem d hd)
    have hhead := hpath.head_eq
    rw [List.head?_map, Option.map_eq_some_iff] at hhead
    obtain ⟨w, hw, hsame⟩ := hhead
    have heq : w = v := List.inj_on_of_nodup_map hg.descriptors_nodup
      (hfs w (List.mem_of_head? hw)) hv hsame
    exact ⟨fs, ⟨heq ▸ hw, hfs⟩, rfl⟩
  obtain ⟨chains, hchains, rfl⟩ := exists_map_eq_of_forall_mem hresolved
  exact ⟨chains, query_chains_of_reports hg hv hf (fun c hc => (hchains c hc).2) hreports,
    hchains⟩

/-- If the walk reports the vertex alone, so does the query. -/
theorem query_chains_of_reports_alone
    (h : Walk.Reports (g.successors r) (some hops.toNat) v.descriptor [[v.descriptor]]) :
    g.query f r (.chains hops) = .ok (.chains [[v]]) := by
  apply query_chains_of_reports hg hv hf _ h
  intro c hc w hw
  rw [List.mem_singleton.mp hc] at hw
  exact List.mem_singleton.mp hw ▸ hv

/-- Within one hop the chains of a vertex are those to each of its neighbours, in their order. -/
theorem query_chains_one (r : Relation) :
    g.query f r (.chains 1) =
      .ok (.chains (if g.neighbours f.descriptor r = [] then [[v]]
        else (g.neighbours f.descriptor r).map fun n => [v, n])) := by
  have hreports := Walk.reports_one (not_mem_successors_self hg r v.descriptor)
  rw [← hf]
  by_cases hempty : g.neighbours v.descriptor r = []
  · rw [if_pos (successors_eq_nil_iff.mpr hempty)] at hreports
    rw [if_pos hempty]
    exact query_chains_of_reports_alone hg hv hf hreports
  · rw [if_neg (mt successors_eq_nil_iff.mp hempty)] at hreports
    rw [if_neg hempty]
    apply query_chains_of_reports hg hv hf
    · intro c hc w hw
      obtain ⟨n, hn, rfl⟩ := List.mem_map.mp hc
      rcases List.mem_pair.mp hw with rfl | rfl
      · exact hv
      · exact mem_vertices_of_mem_neighbours hg hn
    · rw [List.map_map]
      rw [successors, List.map_map] at hreports
      exact hreports

end Known

/-- No query on a built graph fails, and a function that is unknown to the graph has no relations
in either mode.  The chains of a known function are chains of vertices that begin with its own.
Within no hop this is all, and within one hop the chains lead to each of the related functions. -/
theorem build_queries_agree (limits : Limits)
    (functionFiles : List (SourceFile FunctionDecl))
    (occurrenceFiles : List (SourceFile Occurrence)) (f : LocatedFunction) (r : Relation) :
    let g := build limits functionFiles occurrenceFiles
    ∃ related, g.query f r .oneHop = .ok (.oneHop related) ∧
      ∀ hops, ∃ chains, g.query f r (.chains hops) = .ok (.chains chains) ∧
        (f.descriptor ∉ g.vertices.map LocatedFunction.descriptor →
          related = [] ∧ chains = []) ∧
        ∀ v ∈ g.vertices, v.descriptor = f.descriptor →
          (∀ c ∈ chains, c.head? = some v ∧ ∀ w ∈ c, w ∈ g.vertices) ∧
            (hops = 0 → chains = [[v]]) ∧
            (hops = 1 →
              chains = if related = [] then [[v]] else related.map fun n => [v, n]) := by
  intro g
  have hg : g.WellFormed := wellFormed_build limits functionFiles occurrenceFiles
  refine ⟨g.neighbours f.descriptor r, rfl, fun hops => ?_⟩
  by_cases hf : f.descriptor ∈ g.vertices.map LocatedFunction.descriptor
  · obtain ⟨v, hv, hsame⟩ := List.mem_map.mp hf
    obtain ⟨chains, hquery, hchains⟩ := exists_query_chains hg hv hsame r hops
    have heq : ∀ chains', g.query f r (.chains hops) = .ok (.chains chains') →
        chains = chains' := by
      intro chains' h
      exact QueryAnswer.chains.inj (Except.ok.inj (hquery.symm.trans h))
    refine ⟨chains, hquery, fun hunknown => absurd hf hunknown, fun w hw hsame' => ?_⟩
    obtain rfl : v = w :=
      List.inj_on_of_nodup_map hg.descriptors_nodup hv hw (hsame.trans hsame'.symm)
    refine ⟨hchains, ?_, ?_⟩
    · rintro rfl
      exact heq _ (query_chains_of_reports_alone hg hv hsame (Walk.reports_zero _ _))
    · rintro rfl
      exact heq _ (query_chains_one hg hv hsame r)
  · refine ⟨[], query_chains_of_not_mem hg hf r hops, fun _ => ⟨neighbours_of_not_mem hg hf r, rfl⟩,
      fun v hv hsame => absurd (hsame ▸ List.mem_map_of_mem hv) hf⟩

/-- The first of three functions calls the other two, and a function of its name in another file
has no relations. -/
theorem build_queries_agree_three :
    let g := build {} [threeFunctions "m.go"] [threeOccurrences "m.go"]
    ∃ first second third, (threeFunctions "m.go").located = [first, second, third] ∧
      g.query first .calls .oneHop = .ok (.oneHop [second, third]) ∧
      g.query first .calls (.chains 0) = .ok (.chains [[first]]) ∧
      g.query first .calls (.chains 1) = .ok (.chains [[first, second], [first, third]]) ∧
      g.query { first with path := "n.go" } .calls (.chains 1) = .ok (.chains []) := by
  intro g
  refine ⟨_, _, _, rfl, ?_⟩
  let first : LocatedFunction := ⟨.ofSpans "main" (.ofRows 0 5) (.ofRows 0 5), "m.go"⟩
  have hfirst : first ∈ g.vertices := by decide +kernel
  have hunknown : { first with path := "n.go" }.descriptor ∉
      g.vertices.map LocatedFunction.descriptor := by decide +kernel
  obtain ⟨related, hrelated, hchains⟩ := build_queries_agree {}
    [threeFunctions "m.go"] [threeOccurrences "m.go"] first .calls
  obtain ⟨_, -, hother⟩ := build_queries_agree {}
    [threeFunctions "m.go"] [threeOccurrences "m.go"] { first with path := "n.go" } .calls
  obtain ⟨none, hnone, -, hzero⟩ := hchains 0
  obtain ⟨one, hone, -, hhop⟩ := hchains 1
  obtain ⟨others, hothers, hempty, -⟩ := hother 1
  obtain rfl := (hzero first hfirst rfl).2.1 rfl
  obtain rfl := (hhop first hfirst rfl).2.2 rfl
  obtain ⟨-, rfl⟩ := hempty hunknown
  have hneighbours : g.neighbours first.descriptor .calls =
      [⟨.ofSpans "alpha" (.ofRows 7 9) (.ofRows 7 9), "m.go"⟩,
        ⟨.ofSpans "beta" (.ofRows 11 13) (.ofRows 11 13), "m.go"⟩] := by decide +kernel
  obtain rfl := QueryAnswer.oneHop.inj (Except.ok.inj hrelated)
  rw [hneighbours] at hone hrelated
  exact ⟨hrelated, hnone, hone, hothers⟩

end FunctionGraph
end CallImpact
