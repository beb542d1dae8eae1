import CallImpact.Relation
import CallImpact.Walk.Termination

/-!
# Walks over a list of edges

A list of edges is the plainest lookup: the successors of a node are the other
ends of its edges, in the order of the list and with its repetitions.  Asking
about some nodes may be declared to fail.
-/

namespace CallImpact
namespace Walk
namespace Lookup

variable {N : Type} [DecidableEq N]

/-- The other ends of the edges of a node along a relation. -/
def edgeEnds (edges : List (N × N)) (node : N) : Relation → List N
  | .calls => (edges.filter fun e => decide (e.1 = node)).map Prod.snd
  | .callers => (edges.filter fun e => decide (e.2 = node)).map Prod.fst

/-- The lookup of a list of edges, with the causes of the lookups that fail. -/
def ofEdges (edges : List (N × N)) (failures : List (N × String)) (r : Relation) :
    Lookup N where
  answer node :=
    match failures.lookup node with
    | some cause => .error cause
    | none => .ok (edgeEnds edges node r)
  domain := edges.map Prod.fst ++ edges.map Prod.snd
  mem_domain := by
    intro node successors h hne
    split at h
    · cases h
    · injection h with h
      subst h
      obtain ⟨n, hn⟩ := List.exists_mem_of_ne_nil _ hne
      cases r with
      | calls =>
        obtain ⟨e, he, -⟩ := List.mem_map.mp hn
        obtain ⟨he, hnode⟩ := List.mem_filter.mp he
        exact List.mem_append_left _ (List.mem_map.mpr ⟨e, he, of_decide_eq_true hnode⟩)
      | callers =>
        obtain ⟨e, he, -⟩ := List.mem_map.mp hn
        obtain ⟨he, hnode⟩ := List.mem_filter.mp he
        exact List.mem_append_right _ (List.mem_map.mpr ⟨e, he, of_decide_eq_true hnode⟩)

end Lookup
end Walk
end CallImpact
