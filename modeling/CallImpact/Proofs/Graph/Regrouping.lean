import CallImpact.Proofs.Graph.Correlation
import CallImpact.Proofs.Graph.Neighbours
import CallImpact.Proofs.Walk.Refinement

/-!
# Files and the order of occurrences do not matter

A build depends on the order of the functions, by which the vertices are numbered, but not
on how the functions are divided into files.  Of the occurrences it depends on nothing but
how often each of them is there: a different order of occurrences only changes the order in
which edges are inserted, and every question about the graph is answered from neighbours that
are sorted.
-/

namespace CallImpact
namespace FunctionGraph

/-! ## The occurrences of the input -/

/-- The occurrences of all files, each with its path. -/
def occurrencesOf (occurrenceFiles : List (SourceFile Occurrence)) :
    List (String × Occurrence) :=
  occurrenceFiles.flatMap fun file => file.units.map fun o => (file.path, o)

variable {limits : Limits} {functions : List LocatedFunction}
  {occurrenceFiles occurrenceFiles' : List (SourceFile Occurrence)}

theorem mem_occurrencesOf_iff {path : String} {o : Occurrence} :
    (path, o) ∈ occurrencesOf occurrenceFiles ↔
      ∃ file ∈ occurrenceFiles, file.path = path ∧ o ∈ file.units := by
  rw [occurrencesOf, List.mem_flatMap]
  refine exists_congr fun file => and_congr_right fun _ => ?_
  constructor
  · intro h
    obtain ⟨o', ho', heq⟩ := List.mem_map.mp h
    rw [Prod.mk.injEq] at heq
    exact ⟨heq.1, heq.2 ▸ ho'⟩
  · rintro ⟨rfl, ho⟩
    exact List.mem_map_of_mem ho

theorem ownedCount_eq_countP (functions : List LocatedFunction)
    (occurrenceFiles : List (SourceFile Occurrence)) (name : String) :
    ownedCount functions occurrenceFiles name =
      (occurrencesOf occurrenceFiles).countP fun entry =>
        decide (entry.2.text = name) &&
          (functionsAt functions entry.1).any fun f => f.decl.scope.encloses entry.2.span := by
  rw [ownedCount, occurrencesOf, List.countP_flatMap]
  congr 1
  apply List.map_congr_left
  intro file _
  rw [Function.comp_apply, List.countP_map]
  rfl

theorem Refers.of_perm (h : (occurrencesOf occurrenceFiles).Perm (occurrencesOf occurrenceFiles'))
    {u v : Nat} (hrefers : Refers limits functions occurrenceFiles u v) :
    Refers limits functions occurrenceFiles' u v := by
  obtain ⟨hne, f, hstands, hlong, howns, hfew⟩ := hrefers
  refine ⟨hne, f, hstands, hlong, ?_, ?_⟩
  · obtain ⟨file, hfile, o, ho, htext, howns⟩ := howns
    have hmem := h.mem_iff.mp (mem_occurrencesOf_iff.mpr ⟨file, hfile, rfl, ho⟩)
    obtain ⟨file', hfile', hpath, ho'⟩ := mem_occurrencesOf_iff.mp hmem
    exact ⟨file', hfile', o, ho', htext, hpath ▸ howns⟩
  · intro limit hlimit
    rw [ownedCount_eq_countP, ← h.countP_eq, ← ownedCount_eq_countP]
    exact hfew limit hlimit

theorem refers_iff_of_perm
    (h : (occurrencesOf occurrenceFiles).Perm (occurrencesOf occurrenceFiles')) {u v : Nat} :
    Refers limits functions occurrenceFiles u v ↔
      Refers limits functions occurrenceFiles' u v :=
  ⟨Refers.of_perm h, Refers.of_perm h.symm⟩

/-! ## Graphs that differ in the order of their edges -/

/-- The graphs have the same vertices in the same order, and the same edges in any order. -/
structure SameUpToEdgeOrder (g g' : FunctionGraph) : Prop where
  vertices_eq : g.vertices = g'.vertices
  mem_edges_iff : ∀ e, e ∈ g.callGraph.edges ↔ e ∈ g'.callGraph.edges

namespace SameUpToEdgeOrder

variable {g g' : FunctionGraph} (h : g.SameUpToEdgeOrder g') (hg : g.WellFormed)
  (hg' : g'.WellFormed)

include h hg hg'

theorem indexOf_eq (d : Descriptor) : g.indexOf d = g'.indexOf d := by
  apply Option.ext
  intro v
  rw [hg.indexOf_iff, hg'.indexOf_iff, h.vertices_eq]

theorem mem_edges_along_iff (r : Relation) (v w : Nat) :
    (v, w) ∈ g.edges r ↔ (v, w) ∈ g'.edges r := by
  match r with
  | .calls => exact h.mem_edges_iff (v, w)
  | .callers =>
    rw [mem_edges_callers_iff hg, mem_edges_callers_iff hg']
    exact h.mem_edges_iff (w, v)

theorem neighbours_eq (d : Descriptor) (r : Relation) :
    g.neighbours d r = g'.neighbours d r := by
  have hindex := h.indexOf_eq hg hg' d
  rcases hd : g.indexOf d with _ | v
  · rw [neighbours_of_unknown hd, neighbours_of_unknown (hindex ▸ hd)]
  · obtain ⟨f, hf, rfl⟩ := hg.indexOf_eq_some_iff.mp hd
    rw [neighbours_eq_verticesWhere hg hf,
      neighbours_eq_verticesWhere hg' (h.vertices_eq ▸ hf)]
    simp only [verticesWhere, h.vertices_eq, h.mem_edges_along_iff hg hg']

theorem neighbourhood_eq (f : LocatedFunction) :
    g.neighbourhood f = g'.neighbourhood f := by
  rw [neighbourhood, neighbourhood, h.neighbours_eq hg hg', h.neighbours_eq hg hg']

theorem walk_eq (bounds : Walk.Bounds) (r : Relation) (d : Descriptor) :
    g.walk bounds r d = g'.walk bounds r d := by
  apply Walk.Lookup.walk_congr
  intro d
  have hneighbours := h.neighbours_eq hg hg' d r
  exact congrArg (fun ns : List LocatedFunction => Except.ok (ns.map LocatedFunction.descriptor))
    hneighbours

theorem function?_eq (d : Descriptor) : g.function? d = g'.function? d := by
  have hvertex : g.callGraph.vertex? = g'.callGraph.vertex? := by
    funext v
    exact congrArg (fun vertices : List LocatedFunction => vertices[v]?) h.vertices_eq
  rw [function?, function?, h.indexOf_eq hg hg', hvertex]

theorem resolve_eq (chain : List Descriptor) : g.resolve chain = g'.resolve chain := by
  induction chain with
  | nil => rfl
  | cons d rest ih => rw [resolve, resolve, h.function?_eq hg hg', ih]

theorem resolveAll_eq (chains : List (List Descriptor)) :
    g.resolveAll chains = g'.resolveAll chains := by
  induction chains with
  | nil => rfl
  | cons chain rest ih => rw [resolveAll, resolveAll, h.resolve_eq hg hg', ih]

theorem query_eq (f : LocatedFunction) (r : Relation) (depth : Reach) :
    g.query f r depth = g'.query f r depth := by
  match depth with
  | .oneHop => rw [query, query, h.neighbours_eq hg hg']
  | .chains hops =>
    have hcontains : g.contains f = g'.contains f :=
      congrArg Option.isSome (h.indexOf_eq hg hg' f.descriptor)
    rw [query, query, hcontains, h.walk_eq hg hg', relatedByChains, relatedByChains]
    simp only [h.resolveAll_eq hg hg']

end SameUpToEdgeOrder

/-- Functions in the same order and occurrences in any order, divided into files in any way,
give graphs with the same vertices and the same edges, and with the same answers. -/
theorem build_regrouped (limits : Limits)
    {functionFiles functionFiles' : List (SourceFile FunctionDecl)}
    {occurrenceFiles occurrenceFiles' : List (SourceFile Occurrence)}
    (hfunctions : functionsOf functionFiles = functionsOf functionFiles')
    (hoccurrences : (occurrencesOf occurrenceFiles).Perm (occurrencesOf occurrenceFiles')) :
    let g := build limits functionFiles occurrenceFiles
    let g' := build limits functionFiles' occurrenceFiles'
    g.vertices = g'.vertices ∧
      (∀ r v w, (v, w) ∈ g.edges r ↔ (v, w) ∈ g'.edges r) ∧
      (∀ d r, g.neighbours d r = g'.neighbours d r) ∧
      (∀ f, g.neighbourhood f = g'.neighbourhood f) ∧
      (∀ f r depth, g.query f r depth = g'.query f r depth) ∧
      ∀ bounds r d, g.walk bounds r d = g'.walk bounds r d := by
  intro g g'
  have hg : g.WellFormed := wellFormed_build limits functionFiles occurrenceFiles
  have hg' : g'.WellFormed := wellFormed_build limits functionFiles' occurrenceFiles'
  have hvertices : g.vertices = g'.vertices := by
    have hregister : ∀ files occurrences, (build limits files occurrences).vertices =
        (register {} (functionsOf files)).2.vertices :=
      fun files occurrences => vertices_connect _ _
    rw [hregister, hregister, hfunctions]
  have hsame : g.SameUpToEdgeOrder g' := by
    refine ⟨hvertices, ?_⟩
    rintro ⟨u, v⟩
    rw [mem_edges_build_iff, mem_edges_build_iff, hfunctions]
    exact refers_iff_of_perm hoccurrences
  exact ⟨hvertices, hsame.mem_edges_along_iff hg hg', hsame.neighbours_eq hg hg',
    hsame.neighbourhood_eq hg hg', hsame.query_eq hg hg', hsame.walk_eq hg hg'⟩

/-- If the functions of a file come in two parts and its occurrences one by one from the last
to the first, then the edges are inserted in a different order, but all neighbours are the
same. -/
theorem build_regrouped_three :
    let parts : List (SourceFile FunctionDecl) :=
      [⟨"m.go", .unknown, (threeFunctions "m.go").units.take 1⟩,
        ⟨"m.go", .unknown, (threeFunctions "m.go").units.drop 1⟩]
    let singles : List (SourceFile Occurrence) :=
      (threeOccurrences "m.go").units.reverse.map fun o => ⟨"m.go", .unknown, [o]⟩
    let g := build {} [threeFunctions "m.go"] [threeOccurrences "m.go"]
    let g' := build {} parts singles
    g.callGraph.edges ≠ g'.callGraph.edges ∧ ∀ d r, g.neighbours d r = g'.neighbours d r := by
  intro parts singles g g'
  have hfunctions : functionsOf [threeFunctions "m.go"] = functionsOf parts := by
    decide +kernel
  have hoccurrences : (occurrencesOf [threeOccurrences "m.go"]).Perm
      (occurrencesOf singles) := by
    decide +kernel
  obtain ⟨-, -, hneighbours, -⟩ := build_regrouped {} hfunctions hoccurrences
  exact ⟨by decide +kernel, hneighbours⟩

end FunctionGraph
end CallImpact
