import CallImpact.Proofs.Walk.Refinement

/-!
# Walks end

A source may answer anything at any time, fail, or list a node again and again.  A walk
remembers the first answer for each node, so the answers it hears span a graph, along which
all its paths go.  If a depth bound is set or that graph has finitely many nodes, then the walk
ends after finitely many steps.

No single number sinks with every step, since nodes that were left are entered again along
other paths.  But by induction along the paths that may still be continued, entering a node
leads to the end of the walk or back to where the search was (`Leaves`): inside, one successor
after the other is entered and left.
-/

namespace CallImpact
namespace Walk
namespace Search

variable {N : Type} [DecidableEq N]

/-- What the walk from a node comes through. -/
def Stage (bounds : Bounds) (source : Source N) (start : N)
    (c : Except (Outcome N) (Search N)) : Prop :=
  Leads bounds source (({} : Search N).visit bounds source start) c

/-- The walk hears that the second node is a successor of the first one. -/
def Hears (bounds : Bounds) (source : Source N) (start a b : N) : Prop :=
  ∃ s successors, Stage bounds source start (.ok s) ∧ (a, successors) ∈ s.memo ∧ b ∈ successors

/-- The nodes that can be reached along the answers heard. -/
def heardFrom (bounds : Bounds) (source : Source N) (start : N) : Set N :=
  {n | Relation.ReflTransGen (Hears bounds source start) start n}

/-- The stage leads to the end of the walk, or to a search that went on from the given one and
has the same path and frames. -/
def ComesBack (bounds : Bounds) (source : Source N) (s : Search N)
    (c : Except (Outcome N) (Search N)) : Prop :=
  (∃ outcome, Leads bounds source c (.error outcome)) ∨
    ∃ memo found, Leads bounds source c (.ok { s with memo, found })

/-- Whenever the walk follows a path and enters the node, its search comes back. -/
def Leaves (bounds : Bounds) (source : Source N) (start : N) (path : List N) (node : N) : Prop :=
  ∀ s : Search N, s.Follows path → Stage bounds source start (s.visit bounds source node) →
    ComesBack bounds source s (s.visit bounds source node)

variable {bounds : Bounds} {source : Source N} {start node : N} {s : Search N}
  {path successors : List N} {c d : Except (Outcome N) (Search N)}

theorem ComesBack.trans (hcd : Leads bounds source c d) (h : ComesBack bounds source s d) :
    ComesBack bounds source s c := by
  rcases h with ⟨outcome, h⟩ | ⟨memo, found, h⟩
  · exact Or.inl ⟨outcome, Relation.ReflTransGen.trans hcd h⟩
  · exact Or.inr ⟨memo, found, Relation.ReflTransGen.trans hcd h⟩

theorem Stage.step (h : Stage bounds source start (.ok s)) :
    Stage bounds source start (s.step bounds source) :=
  Relation.ReflTransGen.tail h ⟨s, rfl, rfl⟩

/-- Before the depth bound, entering a node ends the walk or takes up the successors that are
remembered for the node. -/
theorem exists_visit_eq (source : Source N) (node : N)
    (hdeep : ¬ bounds.maxDepth.any (· ≤ s.path.length) = true) :
    (∃ outcome, s.visit bounds source node = .error outcome) ∨
      ∃ memo successors, (node, successors) ∈ memo ∧ s.visit bounds source node =
        .ok (({ s with memo } : Search N).advance node |>.expand successors) := by
  rcases visit_cases source node hdeep with ⟨successors, hmemo, hvisit⟩ |
    ⟨successors, -, hvisit⟩ | ⟨failure, lookups, hvisit, -⟩
  · exact Or.inr ⟨s.memo, successors, lookup_mem hmemo, hvisit⟩
  · exact Or.inr ⟨_, successors, List.mem_cons_self .., hvisit⟩
  · exact Or.inl ⟨_, hvisit⟩

/-- A search comes back from an open frame if it leaves each of the successors that it may
still enter. -/
theorem comesBack_frame {nodes : List N} {frame : Frame N}
    (hleaves : ∀ next ∈ nodes, Leaves bounds source start (path ++ [node]) next)
    (hs : s.Follows path) (hnode : node ∉ path)
    (hframe : remaining (s.advance node).onPath frame = nodes)
    (hstage : Stage bounds source start (.ok ((s.advance node).push frame))) :
    ComesBack bounds source s (.ok ((s.advance node).push frame)) := by
  induction nodes generalizing s frame with
  | nil =>
    refine Or.inr ⟨s.memo, s.found, Leads.head_step ?_⟩
    rw [step_push_of_done (next?_eq_none hframe), retreat_advance (hs.not_mem_onPath hnode)]
    exact Relation.ReflTransGen.refl
  | cons next nodes ih =>
    obtain ⟨hfirst, hrest⟩ := List.forall_mem_cons.mp hleaves
    obtain ⟨after, hnext, hafter⟩ := next?_eq_some hframe
    have hadvance := hs.advance node
    have hstep := hstage.step
    rw [step_push_of_next hnext] at hstep
    have hentered := hfirst ((s.advance node).push after)
      ⟨hadvance.path_eq, hadvance.mem_onPath⟩ hstep
    rcases hentered with ⟨outcome, hleads⟩ | ⟨memo, found, hleads⟩
    · refine Or.inl ⟨outcome, Leads.head_step ?_⟩
      rw [step_push_of_next hnext]
      exact hleads
    · -- back from the first successor, the search goes on with the others
      have hback := ih (s := { s with memo, found }) hrest ⟨hs.path_eq, hs.mem_onPath⟩ hafter
        (Relation.ReflTransGen.trans hstep hleads)
      refine ComesBack.trans (Leads.head_step ?_) hback
      rw [step_push_of_next hnext]
      exact hleads

/-- At the depth bound a node is recorded and left at once. -/
theorem comesBack_of_deep (hs : s.Follows path) (hnode : node ∉ path)
    (hdeep : bounds.maxDepth.any (· ≤ path.length) = true) :
    ComesBack bounds source s (s.visit bounds source node) := by
  rw [← hs.length_path] at hdeep
  rw [visit_eq_of_deep hdeep, retreat_record_advance (hs.not_mem_onPath hnode)]
  exact Or.inr ⟨s.memo, _, Relation.ReflTransGen.refl⟩

/-- Before the depth bound, a search comes back from a node if it leaves each of the successors
heard that are not on the path. -/
theorem comesBack_of_next (hs : s.Follows path) (hnode : node ∉ path)
    (hdeep : bounds.maxDepth.any (· ≤ path.length) = false)
    (hleaves : ∀ next, Hears bounds source start node next → next ∉ path ++ [node] →
      Leaves bounds source start (path ++ [node]) next)
    (hstage : Stage bounds source start (s.visit bounds source node)) :
    ComesBack bounds source s (s.visit bounds source node) := by
  rw [← hs.length_path] at hdeep
  rcases exists_visit_eq source node (Bool.not_eq_true _ ▸ hdeep) with ⟨outcome, hvisit⟩ |
    ⟨memo, successors, hmemo, hvisit⟩
  · exact Or.inl ⟨outcome, hvisit ▸ Relation.ReflTransGen.refl⟩
  have hs' : Search.Follows { s with memo } path := ⟨hs.path_eq, hs.mem_onPath⟩
  rw [hvisit] at hstage ⊢
  by_cases hempty : successors = []
  · rw [hempty, expand_advance_nil (hs'.not_mem_onPath hnode)]
    exact Or.inr ⟨memo, _, Relation.ReflTransGen.refl⟩
  rw [Search.expand, if_neg (by rwa [List.isEmpty_iff])] at hstage ⊢
  have hnext : ∀ next ∈ successors.filter (· ∉ path ++ [node]),
      Leaves bounds source start (path ++ [node]) next := by
    intro next hnext
    rw [List.mem_filter, decide_eq_true_eq] at hnext
    exact hleaves next ⟨_, successors, hstage, hmemo, hnext.1⟩ hnext.2
  exact comesBack_frame (s := { s with memo }) hnext hs' hnode
    (hs'.remaining_advance node successors) hstage

theorem leaves_of_next (path : List N) (node : N) (hnodup : (path ++ [node]).Nodup)
    (hleaves : bounds.maxDepth.any (· ≤ path.length) = false →
      ∀ next, Hears bounds source start node next → next ∉ path ++ [node] →
        Leaves bounds source start (path ++ [node]) next) :
    Leaves bounds source start path node := by
  intro s hs hstage
  rw [← List.concat_eq_append, List.nodup_concat] at hnodup
  cases hdeep : bounds.maxDepth.any (· ≤ path.length) with
  | true => exact comesBack_of_deep hs hnodup.1 hdeep
  | false => exact comesBack_of_next hs hnodup.1 hdeep (hleaves hdeep) hstage

/-- A walk ends after finitely many steps, whatever its source answers and whenever, if a depth
bound is set or only finitely many nodes can be reached along the answers heard. -/
theorem exists_ends (bounds : Bounds) (source : Source N) (start : N)
    (h : bounds.maxDepth.isSome = true ∨ (heardFrom bounds source start).Finite) :
    ∃ outcome, Ends bounds source start outcome := by
  have hleaves : Leaves bounds source start [] start := path_induction leaves_of_next h
  have hback := hleaves {} ⟨rfl, fun _ => Iff.rfl⟩ Relation.ReflTransGen.refl
  have hends : ∃ outcome, Leads bounds source (({} : Search N).visit bounds source start)
      (.error outcome) := by
    rcases hback with hends | ⟨memo, found, hleads⟩
    · exact hends
    · -- back at the empty search no frame is left
      exact ⟨_, Relation.ReflTransGen.tail hleads ⟨_, rfl, rfl⟩⟩
  obtain ⟨outcome, hleads⟩ := hends
  obtain ⟨fuel, hfuel⟩ := exists_runFrom_of_leads hleads
  exact ⟨outcome, fuel, by rw [walk_eq_runFrom, hfuel]⟩

/-- Over three nodes, every answer leads back, and later ones fail. -/
def fadingSource : Source (Fin 3) :=
  fun asked n => if asked.length < 2 then .ok [n + 1, n, n + 1, 0] else .error "gone"

/-- Over all numbers, each answer leads further than those before. -/
def risingSource : Source Nat :=
  fun asked n => .ok [n + asked.length + 1, n, 0, n + 2]

theorem exists_ends_changing :
    ((heardFrom {} fadingSource 0).Finite ∧ ∃ outcome, Ends {} fadingSource 0 outcome) ∧
      ∃ outcome, Ends { maxDepth := some 3 } risingSource 7 outcome := by
  have hfinite : (heardFrom {} fadingSource 0).Finite := Set.toFinite _
  exact ⟨⟨hfinite, exists_ends _ _ _ (Or.inr hfinite)⟩, exists_ends _ _ _ (Or.inl rfl)⟩

end Search
end Walk
end CallImpact
