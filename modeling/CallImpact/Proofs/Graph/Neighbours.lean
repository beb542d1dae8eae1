import CallImpact.Graph.Query
import CallImpact.Proofs.Graph.Invariant
import Mathlib.Data.List.Sort

/-!
# Neighbours are listed in the order of the vertices

The row of a vertex in the table of neighbours is ascending.  In a well-formed graph no
vertex is missing from one of the two graphs, and the neighbours of a descriptor have
different descriptors.  Hence the table says what a scan of the edges says: the neighbours
of a vertex are the other ends of its edges, each once, in the order of the vertices.
-/

namespace CallImpact

theorem pairwise_insertAscending {α : Type} [LinearOrder α] {a : α} {as : List α}
    (h : as.Pairwise (· < ·)) : (insertAscending a as).Pairwise (· < ·) := by
  induction as with
  | nil => exact List.pairwise_singleton _ a
  | cons b rest ih =>
    obtain ⟨hb, hrest⟩ := List.pairwise_cons.mp h
    rw [insertAscending]
    by_cases hlt : a < b
    · rw [if_pos hlt, List.pairwise_cons]
      refine ⟨fun c hc => ?_, h⟩
      rcases List.mem_cons.mp hc with rfl | hc
      · exact hlt
      · exact hlt.trans (hb c hc)
    · rw [if_neg hlt]
      by_cases heq : a = b
      · rwa [if_pos heq]
      · rw [if_neg heq, List.pairwise_cons]
        refine ⟨fun c hc => ?_, ih hrest⟩
        rcases mem_insertAscending.mp hc with rfl | hc
        · exact lt_of_le_of_ne (not_lt.mp hlt) (Ne.symm heq)
        · exact hb c hc

theorem pairwise_ascending {α : Type} [LinearOrder α] (as : List α) :
    (ascending as).Pairwise (· < ·) := by
  induction as with
  | nil => exact List.Pairwise.nil
  | cons a rest ih => exact pairwise_insertAscending ih

namespace Multigraph

theorem ascending_targets {α : Type} (g : Multigraph α) (v : Nat) :
    (g.targets v).Pairwise (· < ·) :=
  pairwise_ascending _

theorem nodup_targets {α : Type} (g : Multigraph α) (v : Nat) : (g.targets v).Nodup :=
  (g.ascending_targets v).imp fun h => Nat.ne_of_lt h

end Multigraph

namespace FunctionGraph

/-- The graph with the edges of a relation. -/
def along (g : FunctionGraph) : Relation → Multigraph LocatedFunction
  | .calls => g.callGraph
  | .callers => g.callerGraph

variable {g : FunctionGraph}

theorem vertices_along (hg : g.WellFormed) (r : Relation) :
    (g.along r).vertices = g.vertices := by
  cases r with
  | calls => rfl
  | callers => exact hg.same_vertices

/-- Every vertex is in both graphs. -/
theorem isSome_vertex?_along (hg : g.WellFormed) (r : Relation) {v : Nat}
    (hv : v < g.callGraph.order) : ((g.along r).vertex? v).isSome = true := by
  rw [Multigraph.vertex?, vertices_along hg, Option.isSome_iff_exists]
  exact ⟨_, List.getElem?_eq_getElem hv⟩

/-- The row of a vertex lists the targets of its edges. -/
theorem row_neighbourTable (hg : g.WellFormed) {v : Nat} (hv : v < g.callGraph.order)
    (r : Relation) :
    g.neighbourTable.row r v = (g.along r).targets v := by
  have hrange : (List.range g.callGraph.order)[v]? = some v := List.getElem?_range hv
  have hvertex : (g.callerGraph.vertex? v).isSome = true := isSome_vertex?_along hg .callers hv
  cases r with
  | calls =>
    rw [NeighbourTable.row, neighbourTable, List.getD_eq_getElem?_getD, List.getElem?_map,
      hrange]
    rfl
  | callers =>
    rw [NeighbourTable.row, neighbourTable, List.getD_eq_getElem?_getD, List.getElem?_map,
      hrange, Option.map_some, if_pos hvertex]
    rfl

theorem neighbours_of_indexOf (hg : g.WellFormed) {d : Descriptor} {v : Nat}
    (hd : g.indexOf d = some v) (r : Relation) :
    g.neighbours d r = ((g.along r).targets v).filterMap g.callGraph.vertex? := by
  rw [neighbours, neighboursIn, hd]
  simp only [row_neighbourTable hg (hg.indexOf_lt hd)]

theorem neighbours_of_unknown {d : Descriptor} (hd : g.indexOf d = none) (r : Relation) :
    g.neighbours d r = [] := by
  rw [neighbours, neighboursIn, hd]

/-- No two vertices have the same descriptor, so no two neighbours have. -/
theorem nodup_descriptors_neighbours (hg : g.WellFormed) (d : Descriptor) (r : Relation) :
    ((g.neighbours d r).map LocatedFunction.descriptor).Nodup := by
  cases hd : g.indexOf d with
  | none =>
    rw [neighbours_of_unknown hd]
    exact List.nodup_nil
  | some v =>
    have hinj : ∀ w w' e, (g.callGraph.vertex? w).map LocatedFunction.descriptor = some e →
        (g.callGraph.vertex? w').map LocatedFunction.descriptor = some e → w = w' := by
      intro w w' e hw hw'
      rw [Multigraph.vertex?, ← List.getElem?_map] at hw hw'
      exact getElem?_unique hg.descriptors_nodup hw hw'
    rw [neighbours_of_indexOf hg hd, List.map_filterMap]
    exact List.Nodup.filterMap hinj ((g.along r).nodup_targets v)

/-! ## Neighbours and edges -/

theorem mem_edges_callers_iff (hg : g.WellFormed) {v w : Nat} :
    (v, w) ∈ g.edges .callers ↔ (w, v) ∈ g.edges .calls := by
  have hswap : Prod.swap (w, v) ∈ g.callGraph.edges.map Prod.swap ↔
      (w, v) ∈ g.callGraph.edges := List.mem_map_of_injective Prod.swap_injective
  rw [← hg.transposed] at hswap
  exact hswap

/-- No edge leads to a number without a vertex. -/
theorem lt_order_of_mem_edges (hg : g.WellFormed) {v w : Nat} {r : Relation}
    (h : (v, w) ∈ g.edges r) : v < g.callGraph.order ∧ w < g.callGraph.order := by
  cases r with
  | calls => exact hg.ends_lt _ h
  | callers => exact (hg.ends_lt _ ((mem_edges_callers_iff hg).mp h)).symm

theorem mem_targets_along_iff (hg : g.WellFormed) {v w : Nat} {r : Relation} :
    w ∈ (g.along r).targets v ↔ (v, w) ∈ g.edges r := by
  have horder : (g.along r).order = g.callGraph.order :=
    congrArg List.length (vertices_along hg r)
  have hedges : (g.along r).edges = g.edges r := by
    cases r <;> rfl
  rw [Multigraph.mem_targets, horder, hedges]
  exact and_iff_left_of_imp fun h => (lt_order_of_mem_edges hg h).2

theorem mem_neighbours_iff (hg : g.WellFormed) {d : Descriptor} {r : Relation}
    {f : LocatedFunction} :
    f ∈ g.neighbours d r ↔
      ∃ v w, g.indexOf d = some v ∧ g.vertices[w]? = some f ∧ (v, w) ∈ g.edges r := by
  cases hd : g.indexOf d with
  | none =>
    rw [neighbours_of_unknown hd]
    simp
  | some v =>
    simp only [neighbours_of_indexOf hg hd, List.mem_filterMap, mem_targets_along_iff hg]
    constructor
    · rintro ⟨w, hw, hf⟩
      exact ⟨v, w, rfl, hf, hw⟩
    · rintro ⟨v', w, heq, hf, hw⟩
      obtain rfl := Option.some_inj.mp heq
      exact ⟨w, hw, hf⟩

theorem mem_neighbours_of_getElem? (hg : g.WellFormed) {v : Nat} {f n : LocatedFunction}
    {r : Relation} (hv : g.vertices[v]? = some f) :
    n ∈ g.neighbours f.descriptor r ↔ ∃ w, g.vertices[w]? = some n ∧ (v, w) ∈ g.edges r := by
  have hindex := hg.indexOf_of_getElem? hv
  rw [mem_neighbours_iff hg]
  constructor
  · rintro ⟨v', w, hv', hw, hedge⟩
    obtain rfl := Option.some_inj.mp (hindex.symm.trans hv')
    exact ⟨w, hw, hedge⟩
  · rintro ⟨w, hw, hedge⟩
    exact ⟨v, w, hindex, hw, hedge⟩

theorem mem_descriptors_neighbours_iff (hg : g.WellFormed) {d e : Descriptor} {r : Relation} :
    e ∈ (g.neighbours d r).map LocatedFunction.descriptor ↔
      ∃ v w, g.indexOf d = some v ∧ g.indexOf e = some w ∧ (v, w) ∈ g.edges r := by
  simp only [List.mem_map, mem_neighbours_iff hg]
  constructor
  · rintro ⟨f, ⟨v, w, hd, hf, hedge⟩, rfl⟩
    exact ⟨v, w, hd, hg.indexOf_of_getElem? hf, hedge⟩
  · rintro ⟨v, w, hd, he, hedge⟩
    obtain ⟨f, hf, rfl⟩ := hg.indexOf_eq_some_iff.mp he
    exact ⟨f, ⟨v, w, hd, hf, hedge⟩, rfl⟩

/-- One function is called by another one exactly if the other one is a caller of it. -/
theorem mem_descriptors_callees_iff (hg : g.WellFormed) {d e : Descriptor} :
    e ∈ (g.neighbours d .calls).map LocatedFunction.descriptor ↔
      d ∈ (g.neighbours e .callers).map LocatedFunction.descriptor := by
  rw [mem_descriptors_neighbours_iff hg, mem_descriptors_neighbours_iff hg]
  constructor
  · rintro ⟨v, w, hd, he, hedge⟩
    exact ⟨w, v, he, hd, (mem_edges_callers_iff hg).mpr hedge⟩
  · rintro ⟨w, v, he, hd, hedge⟩
    exact ⟨v, w, hd, he, (mem_edges_callers_iff hg).mp hedge⟩

/-! ## A plain scan of the edges -/

/-- The vertices whose numbers have a property, in the order of their numbers. -/
def verticesWhere (g : FunctionGraph) (p : Nat → Prop) [DecidablePred p] :
    List LocatedFunction :=
  (g.vertices.zipIdx.filter fun entry => decide (p entry.2)).map Prod.fst

/-- The neighbours of a vertex are the other ends of its edges, in the order of the
vertices. -/
theorem neighbours_eq_verticesWhere (hg : g.WellFormed) {v : Nat} {f : LocatedFunction}
    (hv : g.vertices[v]? = some f) (r : Relation) :
    g.neighbours f.descriptor r = g.verticesWhere fun w => (v, w) ∈ g.edges r := by
  let scanned := g.vertices.zipIdx.filter fun entry => decide ((v, entry.2) ∈ g.edges r)
  have hmem : ∀ entry, entry ∈ scanned ↔
      g.vertices[entry.2]? = some entry.1 ∧ (v, entry.2) ∈ g.edges r := by
    intro entry
    rw [List.mem_filter, List.mem_zipIdx_iff_getElem?, decide_eq_true_eq]
  have hascending : (scanned.map Prod.snd).Pairwise (· < ·) := by
    have hsub : (scanned.map Prod.snd).Sublist (g.vertices.zipIdx.map Prod.snd) :=
      List.filter_sublist.map Prod.snd
    rw [List.zipIdx_map_snd] at hsub
    exact (List.pairwise_lt_range' 1).sublist hsub
  -- both lists of numbers ascend, so it is enough that they have the same elements
  have htargets : (g.along r).targets v = scanned.map Prod.snd := by
    apply ((g.along r).ascending_targets v).eq_of_mem_iff hascending
    intro w
    rw [mem_targets_along_iff hg, List.mem_map]
    constructor
    · intro hw
      obtain ⟨f', hf'⟩ : ∃ f', g.vertices[w]? = some f' :=
        ⟨_, List.getElem?_eq_getElem (lt_order_of_mem_edges hg hw).2⟩
      exact ⟨(f', w), (hmem _).mpr ⟨hf', hw⟩, rfl⟩
    · rintro ⟨entry, hentry, rfl⟩
      exact ((hmem entry).mp hentry).2
  rw [neighbours_of_indexOf hg (hg.indexOf_of_getElem? hv), htargets, List.filterMap_map,
    verticesWhere, List.filterMap_eq_map_iff_forall_eq_some]
  intro entry hentry
  exact ((hmem entry).mp hentry).1

/-! ## A small input -/

/-- A file of three functions, one below the other. -/
def threeFunctions (path : String) : SourceFile FunctionDecl where
  path
  units :=
    [.ofSpans "main" (.ofRows 0 5) (.ofRows 0 5), .ofSpans "alpha" (.ofRows 7 9) (.ofRows 7 9),
      .ofSpans "beta" (.ofRows 11 13) (.ofRows 11 13)]

/-- Occurrences in such a file, by which the first function refers to the other two and the
second one to the third. -/
def threeOccurrences (path : String) : SourceFile Occurrence where
  path
  units :=
    [{ text := "beta", span := .ofRows 2 2 }, { text := "alpha", span := .ofRows 3 3 },
      { text := "beta", span := .ofRows 8 8 }]

/-- In a built graph the table of neighbours says what a scan of the edges says: the
neighbours of a vertex are the other ends of its edges, each once, in the order of the
vertices.  No vertex and no end of an edge is missing. -/
theorem build_neighbours_eq_scan (limits : Limits)
    (functionFiles : List (SourceFile FunctionDecl))
    (occurrenceFiles : List (SourceFile Occurrence)) :
    let g := build limits functionFiles occurrenceFiles
    (∀ d, d ∉ g.vertices.map LocatedFunction.descriptor → ∀ r, g.neighbours d r = []) ∧
      (∀ v f, g.vertices[v]? = some f →
        g.neighbours f.descriptor .calls =
            g.verticesWhere (fun w => (v, w) ∈ g.callGraph.edges) ∧
          g.neighbours f.descriptor .callers =
            g.verticesWhere fun w => (w, v) ∈ g.callGraph.edges) ∧
      (∀ d r, ((g.neighbours d r).map LocatedFunction.descriptor).Nodup) ∧
      (∀ d e, e ∈ (g.neighbours d .calls).map LocatedFunction.descriptor ↔
        d ∈ (g.neighbours e .callers).map LocatedFunction.descriptor) ∧
      (∀ v < g.callGraph.order, (g.callerGraph.vertex? v).isSome = true) ∧
      ∀ r, ∀ e ∈ g.edges r, ((g.along r).vertex? e.2).isSome = true := by
  intro g
  have hg : g.WellFormed := wellFormed_build limits functionFiles occurrenceFiles
  refine ⟨?_, ?_, nodup_descriptors_neighbours hg, fun d e => mem_descriptors_callees_iff hg,
    fun v hv => isSome_vertex?_along hg .callers hv, ?_⟩
  · intro d hd r
    cases hindex : g.indexOf d with
    | none => exact neighbours_of_unknown hindex r
    | some v => exact absurd (List.mem_of_getElem? ((hg.indexOf_iff d v).mp hindex)) hd
  · intro v f hv
    refine ⟨neighbours_eq_verticesWhere hg hv .calls, ?_⟩
    rw [neighbours_eq_verticesWhere hg hv .callers]
    simp only [mem_edges_callers_iff hg]
    rfl
  · rintro r ⟨v, w⟩ he
    exact isSome_vertex?_along hg r (lt_order_of_mem_edges hg he).2

/-- The second of three functions is called by the first one and calls the third one, and
nothing is known about a function of its name in another file. -/
theorem build_neighbours_eq_scan_three :
    ∃ first second third, (threeFunctions "m.go").located = [first, second, third] ∧
      (build {} [threeFunctions "m.go"] [threeOccurrences "m.go"]).neighbours
        second.descriptor .calls = [third] ∧
      (build {} [threeFunctions "m.go"] [threeOccurrences "m.go"]).neighbours
        second.descriptor .callers = [first] ∧
      (build {} [threeFunctions "m.go"] [threeOccurrences "m.go"]).neighbours
        { second.descriptor with path := "n.go" } .callers = [] := by
  obtain ⟨hunknown, hvertex, -⟩ :=
    build_neighbours_eq_scan {} [threeFunctions "m.go"] [threeOccurrences "m.go"]
  refine ⟨_, _, _, rfl, ?_⟩
  obtain ⟨hcallees, hcallers⟩ :=
    hvertex 1 ⟨.ofSpans "alpha" (.ofRows 7 9) (.ofRows 7 9), "m.go"⟩ (by decide +kernel)
  refine ⟨hcallees.trans (by decide +kernel), hcallers.trans (by decide +kernel), ?_⟩
  exact hunknown _ (by decide +kernel) .callers

end FunctionGraph
end CallImpact
