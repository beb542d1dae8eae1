import CallImpact.Ascending
import CallImpact.Graph.Basic
import CallImpact.Walk.Termination

/-!
# Neighbours

The neighbours of all vertices along both relations are computed at once, into a
table whose rows are in the order of the vertices.  A table answers the question
for the neighbours of a descriptor, and thereby the questions of a walk.
-/

namespace CallImpact

/-- For every vertex the numbers of its callees and of its callers, ascending. -/
structure NeighbourTable where
  callees : List (List Nat)
  callers : List (List Nat)
deriving DecidableEq

def NeighbourTable.row (t : NeighbourTable) (r : Relation) (v : Nat) : List Nat :=
  match r with
  | .calls => t.callees.getD v []
  | .callers => t.callers.getD v []

namespace Multigraph

variable {α : Type}

/-- The targets of the edges from a vertex, ascending and each once; a target that
is no vertex is left out. -/
def targets (g : Multigraph α) (v : Nat) : List Nat :=
  let ends := (g.edges.filter fun e => e.1 == v).map Prod.snd
  ascending (ends.filter fun w => (g.vertex? w).isSome)

theorem mem_targets {g : Multigraph α} {v w : Nat} :
    w ∈ g.targets v ↔ (v, w) ∈ g.edges ∧ w < g.order := by
  have hvertex : (g.vertex? w).isSome = true ↔ w < g.order := by
    simp [vertex?, order]
  rw [targets, mem_ascending, List.mem_filter, hvertex, List.mem_map]
  constructor
  · rintro ⟨⟨⟨a, b⟩, he, rfl⟩, hw⟩
    obtain ⟨he, ha⟩ := List.mem_filter.mp he
    simp only [beq_iff_eq] at ha
    exact ⟨ha ▸ he, hw⟩
  · rintro ⟨he, hw⟩
    exact ⟨⟨(v, w), List.mem_filter.mpr ⟨he, by simp⟩, rfl⟩, hw⟩

end Multigraph

namespace FunctionGraph

/-- The neighbours of all vertices.  A vertex of the call graph that the graph of
callers lacks has no callers. -/
def neighbourTable (g : FunctionGraph) : NeighbourTable :=
  let numbers := List.range g.callGraph.order
  { callees := numbers.map g.callGraph.targets
    callers := numbers.map fun v =>
      if (g.callerGraph.vertex? v).isSome then g.callerGraph.targets v else [] }

def neighboursIn (g : FunctionGraph) (t : NeighbourTable) (d : Descriptor) (r : Relation) :
    List LocatedFunction :=
  match g.indexOf d with
  | none => []
  | some v => (t.row r v).filterMap g.callGraph.vertex?

def neighbours (g : FunctionGraph) (d : Descriptor) (r : Relation) : List LocatedFunction :=
  g.neighboursIn g.neighbourTable d r

/-- The lookup that answers with the neighbours by a table. -/
def lookupIn (g : FunctionGraph) (t : NeighbourTable) (r : Relation) :
    Walk.Lookup Descriptor where
  answer d := .ok ((g.neighboursIn t d r).map LocatedFunction.descriptor)
  domain := g.descriptors
  mem_domain := by
    intro d successors h hne
    injection h with h
    subst h
    rw [neighboursIn] at hne
    split at hne
    · simp at hne
    · rename_i v hv
      exact mem_descriptors_of_indexOf hv

def lookup (g : FunctionGraph) (r : Relation) : Walk.Lookup Descriptor :=
  g.lookupIn g.neighbourTable r

end FunctionGraph
end CallImpact
