import CallImpact.Proofs.Graph.Neighbours
import CallImpact.Star

/-!
# The star of a vertex shows its edges

A star has one node for each callee and for each caller.  Every node but the one in the centre
has one edge.  Read through the functions that the nodes were made from, the edges of the star of
a vertex are the edges of the graph that begin or end there, each once and from the caller to the
callee.
-/

namespace CallImpact

/-- The edges of a star that begin or end at a node. -/
def Star.edgesAt (s : Star) (node : Nat) : List StarEdge :=
  s.edges.filter fun e => decide (e.source = node ∨ e.target = node)

namespace Neighbourhood

/-- The functions that the nodes of the star are made from, in the order of the nodes. -/
def drawn (n : Neighbourhood) : List LocatedFunction :=
  n.function :: (n.callees ++ n.callers)

theorem getElem?_nodes_star (n : Neighbourhood) (node : Nat) :
    n.star.nodes[node]? =
      n.drawn[node]?.map (.ofFunction (if node = 0 then .target else .direct)) := by
  cases node with
  | zero => rfl
  | succ i =>
    rw [star, drawn, List.getElem?_cons_succ, List.getElem?_cons_succ, ← List.map_append,
      List.getElem?_map, if_neg (Nat.succ_ne_zero i)]

/-- The node of a callee has one edge, from the centre. -/
theorem edgesAt_callee (n : Neighbourhood) {i : Nat} (hi : i < n.callees.length) :
    n.star.edgesAt (i + 1) = [⟨0, i + 1, .calls⟩] := by
  have hcallees : (List.range n.callees.length).filter
      (fun k => decide (0 = i + 1 ∨ k + 1 = i + 1)) = [i] :=
    filter_eq_singleton List.nodup_range (List.mem_range.mpr hi) fun k _ => by
      rw [decide_eq_true_iff]
      omega
  have hcallers : (List.range n.callers.length).filter
      (fun k => decide (n.callees.length + k + 1 = i + 1 ∨ 0 = i + 1)) = [] := by
    rw [List.filter_eq_nil_iff]
    intro k _
    rw [decide_eq_true_iff]
    omega
  rw [Star.edgesAt, star, List.filter_append, List.filter_map, List.filter_map]
  simp only [Function.comp_def, hcallees, hcallers]
  rfl

/-- The node of a caller has one edge, to the centre. -/
theorem edgesAt_caller (n : Neighbourhood) {i : Nat} (hi : i < n.callers.length) :
    n.star.edgesAt (n.callees.length + i + 1) =
      [⟨n.callees.length + i + 1, 0, .calls⟩] := by
  have hcallees : (List.range n.callees.length).filter
      (fun k => decide (0 = n.callees.length + i + 1 ∨ k + 1 = n.callees.length + i + 1)) =
      [] := by
    rw [List.filter_eq_nil_iff]
    intro k hk
    rw [List.mem_range] at hk
    rw [decide_eq_true_iff]
    omega
  have hcallers : (List.range n.callers.length).filter
      (fun k => decide (n.callees.length + k + 1 = n.callees.length + i + 1 ∨
        0 = n.callees.length + i + 1)) = [i] :=
    filter_eq_singleton List.nodup_range (List.mem_range.mpr hi) fun k _ => by
      rw [decide_eq_true_iff]
      omega
  rw [Star.edgesAt, star, List.filter_append, List.filter_map, List.filter_map]
  simp only [Function.comp_def, hcallees, hcallers]
  rfl

theorem length_edges_star (n : Neighbourhood) :
    n.star.edges.length = n.callees.length + n.callers.length := by
  rw [star, List.length_append, List.length_map, List.length_map, List.length_range,
    List.length_range]

theorem relation_of_mem_edges_star {n : Neighbourhood} {e : StarEdge} (he : e ∈ n.star.edges) :
    e.relation = .calls := by
  rw [star, List.mem_append, List.mem_map, List.mem_map] at he
  rcases he with ⟨i, _, rfl⟩ | ⟨i, _, rfl⟩
  · rfl
  · rfl

end Neighbourhood

namespace FunctionGraph

/-- The number of the vertex that a node of the star of a neighbourhood was made from. -/
def vertexAt (g : FunctionGraph) (n : Neighbourhood) (node : Nat) : Option Nat :=
  n.drawn[node]?.bind fun f => g.indexOf f.descriptor

variable {g : FunctionGraph} {f : LocatedFunction} {v w : Nat}

/-! ## The vertices of the nodes -/

/-- The neighbours of a vertex are the targets of its edges, in order. -/
theorem map_indexOf_neighbours (hg : g.WellFormed) (hf : g.indexOf f.descriptor = some v)
    (r : Relation) :
    (g.neighbours f.descriptor r).map (fun n => g.indexOf n.descriptor) =
      ((g.along r).targets v).map some := by
  rw [neighbours_of_indexOf hg hf, List.map_filterMap, List.filterMap_eq_map_iff_forall_eq_some]
  intro w hw
  have hlt := (lt_order_of_mem_edges hg ((mem_targets_along_iff hg).mp hw)).2
  have hvertex : g.vertices[w]? = some _ := List.getElem?_eq_getElem hlt
  change (g.vertices[w]?).map _ = some (some w)
  rw [hvertex, Option.map_some, hg.indexOf_of_getElem? hvertex]

theorem length_neighbours (hg : g.WellFormed) (hf : g.indexOf f.descriptor = some v)
    (r : Relation) :
    (g.neighbours f.descriptor r).length = ((g.along r).targets v).length := by
  have hlength := congrArg List.length (map_indexOf_neighbours hg hf r)
  rwa [List.length_map, List.length_map] at hlength

theorem length_callees (hg : g.WellFormed) (hf : g.indexOf f.descriptor = some v) :
    (g.neighbourhood f).callees.length = ((g.along .calls).targets v).length :=
  length_neighbours hg hf .calls

theorem length_callers (hg : g.WellFormed) (hf : g.indexOf f.descriptor = some v) :
    (g.neighbourhood f).callers.length = ((g.along .callers).targets v).length :=
  length_neighbours hg hf .callers

/-- The centre is the vertex itself, then come its callees and last its callers. -/
theorem vertexAt_neighbourhood (hg : g.WellFormed) (hf : g.indexOf f.descriptor = some v)
    (node : Nat) :
    g.vertexAt (g.neighbourhood f) node =
      (v :: ((g.along .calls).targets v ++ (g.along .callers).targets v))[node]? := by
  have hdrawn : (g.neighbourhood f).drawn.map (fun f => g.indexOf f.descriptor) =
      (v :: ((g.along .calls).targets v ++ (g.along .callers).targets v)).map some := by
    rw [Neighbourhood.drawn, List.map_cons, List.map_append, List.map_cons, List.map_append,
      ← map_indexOf_neighbours hg hf .calls, ← map_indexOf_neighbours hg hf .callers, ← hf]
    rfl
  have hnode := congrArg (fun numbers => numbers[node]?) hdrawn
  simp only [List.getElem?_map] at hnode
  rw [vertexAt]
  cases hfunction : (g.neighbourhood f).drawn[node]? with
  | none =>
    rw [hfunction, Option.map_none] at hnode
    exact (Option.map_eq_none_iff.mp hnode.symm).symm
  | some f' =>
    rw [hfunction, Option.map_some] at hnode
    obtain ⟨w, hw, hindex⟩ := Option.map_eq_some_iff.mp hnode.symm
    rw [Option.bind_some, ← hindex, hw]

/-- A node was made from a vertex if it is the centre of the star of that vertex, or if it has
the place of that vertex among the callees or the callers. -/
theorem vertexAt_eq_some_iff (hg : g.WellFormed) (hf : g.indexOf f.descriptor = some v)
    {node : Nat} :
    g.vertexAt (g.neighbourhood f) node = some w ↔
      node = 0 ∧ v = w ∨
        (∃ i : Nat, node = i + 1 ∧ ((g.along .calls).targets v)[i]? = some w) ∨
        ∃ i : Nat, node = (g.neighbourhood f).callees.length + i + 1 ∧
          ((g.along .callers).targets v)[i]? = some w := by
  rw [vertexAt_neighbourhood hg hf, length_callees hg hf]
  constructor
  · intro h
    cases node with
    | zero => exact Or.inl ⟨rfl, Option.some_inj.mp h⟩
    | succ i =>
      rw [List.getElem?_cons_succ, List.getElem?_append] at h
      split at h
      · exact Or.inr (Or.inl ⟨i, rfl, h⟩)
      · exact Or.inr (Or.inr ⟨i - ((g.along .calls).targets v).length, by omega, h⟩)
  · rintro (⟨rfl, rfl⟩ | ⟨i, rfl, hi⟩ | ⟨i, rfl, hi⟩)
    · exact List.getElem?_cons_zero
    · have hlt := (List.getElem?_eq_some_iff.mp hi).1
      rw [List.getElem?_cons_succ, List.getElem?_append_left hlt, hi]
    · rw [List.getElem?_cons_succ, List.getElem?_append_right (Nat.le_add_right _ i),
        Nat.add_sub_cancel_left, hi]

/-! ## The edges -/

/-- The edges of a star, read as pairs of vertices, are the pairs of the vertex and the targets
of its edges. -/
theorem map_vertexAt_edges_star (hg : g.WellFormed) (hf : g.indexOf f.descriptor = some v) :
    (g.neighbourhood f).star.edges.map (fun e => (g.vertexAt (g.neighbourhood f) e.source,
        g.vertexAt (g.neighbourhood f) e.target)) =
      (((g.along .calls).targets v).map (fun w => (v, w)) ++
        ((g.along .callers).targets v).map fun w => (w, v)).map fun e => (some e.1, some e.2) := by
  simp only [vertexAt_neighbourhood hg hf]
  rw [Neighbourhood.star, List.map_append, List.map_append, List.map_map, List.map_map,
    List.map_map, List.map_map, length_callees hg hf, length_callers hg hf]
  congr 1
  · apply List.ext_getElem
    · simp
    · intro i _ hi
      rw [List.length_map] at hi
      simp [List.getElem?_append_left hi, hi]
  · apply List.ext_getElem
    · simp
    · intro i _ hi
      rw [List.length_map] at hi
      simp [hi]

/-- The pairs of a vertex and the targets of its edges are its edges, each once. -/
theorem listsExactly_incident (hg : g.WellFormed) (v : Nat) :
    ListsExactly (fun e => e ∈ g.callGraph.edges ∧ (e.1 = v ∨ e.2 = v))
      (((g.along .calls).targets v).map (fun w => (v, w)) ++
        ((g.along .callers).targets v).map fun w => (w, v)) := by
  have hcallee : ∀ w, w ∈ (g.along .calls).targets v ↔ (v, w) ∈ g.callGraph.edges :=
    fun w => mem_targets_along_iff hg
  have hcaller : ∀ w, w ∈ (g.along .callers).targets v ↔ (w, v) ∈ g.callGraph.edges :=
    fun w => (mem_targets_along_iff hg).trans (mem_edges_callers_iff hg)
  constructor
  · apply List.Nodup.append
    · exact ((g.along .calls).nodup_targets v).map fun w w' h => (Prod.mk.inj h).2
    · exact ((g.along .callers).nodup_targets v).map fun w w' h => (Prod.mk.inj h).1
    · intro e he he'
      obtain ⟨w, hw, rfl⟩ := List.mem_map.mp he
      obtain ⟨w', -, heq⟩ := List.mem_map.mp he'
      -- the pair would be an edge from the vertex to itself
      exact hg.no_self_edge _ ((hcallee w).mp hw) (Prod.mk.inj heq).2
  · rintro ⟨a, b⟩
    rw [List.mem_append, List.mem_map, List.mem_map]
    constructor
    · rintro (⟨w, hw, heq⟩ | ⟨w, hw, heq⟩)
      · obtain ⟨rfl, rfl⟩ := Prod.mk.inj heq
        exact ⟨(hcallee w).mp hw, Or.inl rfl⟩
      · obtain ⟨rfl, rfl⟩ := Prod.mk.inj heq
        exact ⟨(hcaller w).mp hw, Or.inr rfl⟩
    · rintro ⟨he, rfl | rfl⟩
      · exact Or.inl ⟨b, (hcallee b).mpr he, rfl⟩
      · exact Or.inr ⟨a, (hcaller a).mpr he, rfl⟩

/-- A vertex has as many targets along a relation as edges. -/
theorem length_targets (hg : g.WellFormed) (v : Nat) (r : Relation) :
    ((g.along r).targets v).length = (g.edges r).countP fun e => decide (e.1 = v) := by
  have hedges : (g.edges r).Nodup := by
    cases r with
    | calls => exact hg.edges_nodup
    | callers => exact hg.callerGraph_edges_nodup
  have hends : (((g.edges r).filter fun e => decide (e.1 = v)).map Prod.snd).Nodup := by
    apply List.Nodup.map_on _ (hedges.filter _)
    intro e he e' he' hsnd
    have hfst := of_decide_eq_true (List.mem_filter.mp he).2
    have hfst' := of_decide_eq_true (List.mem_filter.mp he').2
    exact Prod.ext (hfst.trans hfst'.symm) hsnd
  have hperm : ((g.along r).targets v).Perm
      (((g.edges r).filter fun e => decide (e.1 = v)).map Prod.snd) := by
    rw [List.perm_ext_iff_of_nodup ((g.along r).nodup_targets v) hends]
    intro w
    rw [mem_targets_along_iff hg, List.mem_map]
    constructor
    · intro hw
      exact ⟨(v, w), List.mem_filter.mpr ⟨hw, decide_eq_true rfl⟩, rfl⟩
    · rintro ⟨e, he, rfl⟩
      obtain ⟨he, hfst⟩ := List.mem_filter.mp he
      exact of_decide_eq_true hfst ▸ he
  rw [hperm.length_eq, List.length_map, List.countP_eq_length_filter]

/-- A star has an edge for each edge from the vertex and one for each edge to it. -/
theorem length_edges_star_neighbourhood (hg : g.WellFormed)
    (hf : g.indexOf f.descriptor = some v) :
    (g.neighbourhood f).star.edges.length =
      (g.callGraph.edges.countP fun e => decide (e.1 = v)) +
        g.callGraph.edges.countP fun e => decide (e.2 = v) := by
  have hswapped : ((g.edges .callers).countP fun e => decide (e.1 = v)) =
      g.callGraph.edges.countP fun e => decide (e.2 = v) := by
    rw [edges, hg.transposed, List.countP_map]
    rfl
  rw [Neighbourhood.length_edges_star, length_callees hg hf, length_callers hg hf,
    length_targets hg, length_targets hg, hswapped]
  rfl

/-- A neighbour in both directions has two nodes, one with the edge to it and one with the edge
from it. -/
theorem exists_callee_and_caller_node (hg : g.WellFormed)
    (hf : g.indexOf f.descriptor = some v) (hcallee : (v, w) ∈ g.callGraph.edges)
    (hcaller : (w, v) ∈ g.callGraph.edges) :
    ∃ callee caller, callee ≠ caller ∧
      (∀ node, g.vertexAt (g.neighbourhood f) node = some w ↔ node = callee ∨ node = caller) ∧
      (g.neighbourhood f).star.edgesAt callee = [⟨0, callee, .calls⟩] ∧
      (g.neighbourhood f).star.edgesAt caller = [⟨caller, 0, .calls⟩] := by
  have hne : v ≠ w := hg.no_self_edge _ hcallee
  obtain ⟨i, hi⟩ := List.mem_iff_getElem?.mp
    ((mem_targets_along_iff (r := .calls) hg).mpr hcallee)
  obtain ⟨j, hj⟩ := List.mem_iff_getElem?.mp
    ((mem_targets_along_iff (r := .callers) hg).mpr ((mem_edges_callers_iff hg).mpr hcaller))
  have hilt : i < (g.neighbourhood f).callees.length :=
    length_callees hg hf ▸ (List.getElem?_eq_some_iff.mp hi).1
  have hjlt : j < (g.neighbourhood f).callers.length :=
    length_callers hg hf ▸ (List.getElem?_eq_some_iff.mp hj).1
  refine ⟨i + 1, (g.neighbourhood f).callees.length + j + 1, by omega, ?_,
    Neighbourhood.edgesAt_callee _ hilt, Neighbourhood.edgesAt_caller _ hjlt⟩
  intro node
  rw [vertexAt_eq_some_iff hg hf]
  constructor
  · rintro (⟨-, heq⟩ | ⟨i', rfl, hi'⟩ | ⟨j', rfl, hj'⟩)
    · exact absurd heq hne
    · obtain rfl := getElem?_unique ((g.along .calls).nodup_targets v) hi' hi
      exact Or.inl rfl
    · obtain rfl := getElem?_unique ((g.along .callers).nodup_targets v) hj' hj
      exact Or.inr rfl
  · rintro (rfl | rfl)
    · exact Or.inr (Or.inl ⟨i, rfl, hi⟩)
    · exact Or.inr (Or.inr ⟨j, rfl, hj⟩)

/-- In the star of a vertex of a built graph the centre is the function itself, and every other
node is a direct neighbour.  The edges all say that one function calls another one.  Read through
the functions that their ends were made from, they are the edges of the graph at the vertex,
each once; so there are as many as the vertex has outgoing and incoming edges.  A neighbour that
is called and calls has two nodes with one edge each. -/
theorem build_star_incident (limits : Limits) (functionFiles : List (SourceFile FunctionDecl))
    (occurrenceFiles : List (SourceFile Occurrence)) (f : LocatedFunction) (v : Nat) :
    let g := build limits functionFiles occurrenceFiles
    let n := g.neighbourhood f
    g.indexOf f.descriptor = some v →
      n.star.nodes.head? = some (.ofFunction .target f) ∧
      (∀ node : Nat, n.star.nodes[node]? =
        n.drawn[node]?.map (.ofFunction (if node = 0 then .target else .direct))) ∧
      (∀ e ∈ n.star.edges, e.relation = .calls) ∧
      (∃ pairs : List (Nat × Nat),
        n.star.edges.map (fun e => (g.vertexAt n e.source, g.vertexAt n e.target)) =
            pairs.map (fun e => (some e.1, some e.2)) ∧
          ListsExactly (fun e => e ∈ g.callGraph.edges ∧ (e.1 = v ∨ e.2 = v)) pairs) ∧
      n.star.edges.length =
        (g.callGraph.edges.countP fun e => decide (e.1 = v)) +
          (g.callGraph.edges.countP fun e => decide (e.2 = v)) ∧
      ∀ w, (v, w) ∈ g.callGraph.edges → (w, v) ∈ g.callGraph.edges →
        ∃ callee caller, callee ≠ caller ∧
          (∀ node, g.vertexAt n node = some w ↔ node = callee ∨ node = caller) ∧
          n.star.edgesAt callee = [⟨0, callee, .calls⟩] ∧
          n.star.edgesAt caller = [⟨caller, 0, .calls⟩] := by
  intro g n hf
  have hg : g.WellFormed := wellFormed_build limits functionFiles occurrenceFiles
  refine ⟨rfl, n.getElem?_nodes_star, fun e he => Neighbourhood.relation_of_mem_edges_star he,
    ⟨_, map_vertexAt_edges_star hg hf, listsExactly_incident hg v⟩,
    length_edges_star_neighbourhood hg hf, ?_⟩
  intro w hcallee hcaller
  exact exists_callee_and_caller_node hg hf hcallee hcaller

/-- Occurrences by which the first two of three functions refer to each other, and the second
one to the third. -/
def backAndForth : SourceFile Occurrence where
  path := "m.go"
  units :=
    [{ text := "alpha", span := .ofRows 2 2 }, { text := "main", span := .ofRows 8 8 },
      { text := "beta", span := .ofRows 8 8 }]

/-- The star of the second function has three edges, and two nodes for the first function. -/
theorem build_star_incident_backAndForth :
    let g := build {} [threeFunctions "m.go"] [backAndForth]
    let f : LocatedFunction := ⟨.ofSpans "alpha" (.ofRows 7 9) (.ofRows 7 9), "m.go"⟩
    g.indexOf f.descriptor = some 1 ∧ (g.neighbourhood f).star.edges.length = 3 ∧
      ∃ callee caller, callee ≠ caller ∧
        (∀ node, g.vertexAt (g.neighbourhood f) node = some 0 ↔ node = callee ∨ node = caller) ∧
        (g.neighbourhood f).star.edgesAt callee = [⟨0, callee, .calls⟩] ∧
        (g.neighbourhood f).star.edgesAt caller = [⟨caller, 0, .calls⟩] := by
  intro g f
  have hf : g.indexOf f.descriptor = some 1 := by decide +kernel
  obtain ⟨-, -, -, -, hlength, hboth⟩ :=
    build_star_incident {} [threeFunctions "m.go"] [backAndForth] f 1 hf
  exact ⟨hf, hlength.trans (by decide +kernel),
    hboth 0 (by decide +kernel) (by decide +kernel)⟩

end FunctionGraph
end CallImpact
