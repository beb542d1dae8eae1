import CallImpact.Proofs.Walk.Runs
import CallImpact.Walk.Termination

/-!
# What a walk asks about

A search forgets no question: every step keeps the nodes asked about so far and adds others
at the end.  The first question of a walk is about its start.  It is not reached only if no
hop is allowed or a signal is set from the beginning, and it stays the only one if the start
has no successors.
-/

namespace CallImpact
namespace Walk

variable {N : Type}

/-- The walk gets as far as its first question. -/
def Bounds.AllowsLookup (bounds : Bounds) : Prop :=
  bounds.maxDepth ≠ some 0 ∧ bounds.cancelled 0 = false ∧ bounds.overdue 0 = false

theorem Bounds.AllowsLookup.not_deep {bounds : Bounds} (h : bounds.AllowsLookup) :
    ¬ bounds.maxDepth.any (· ≤ 0) = true := by
  rw [Option.any_eq_true]
  rintro ⟨depth, hdepth, hle⟩
  rw [decide_eq_true_eq, Nat.le_zero] at hle
  exact h.1 (hle ▸ hdepth)

namespace Search

variable {bounds : Bounds} {source : Source N} {s : Search N} {node start : N}

variable [DecidableEq N]

/-- Entering a node asks about this node or about none. -/
theorem lookupsAt_visit (bounds : Bounds) (source : Source N) (s : Search N) (node : N) :
    s.asked.reverse <+: lookupsAt (s.visit bounds source node) := by
  by_cases hdeep : bounds.maxDepth.any (· ≤ s.path.length) = true
  · rw [visit_eq_of_deep hdeep, lookupsAt_of_memo_eq (memo_retreat (s.advance node).record)]
    exact List.prefix_rfl
  rcases hmemo : s.remembered? node with _ | successors
  · have hnext : s.asked.reverse <+: (node :: s.asked).reverse := by
      rw [List.reverse_cons]
      exact List.prefix_append ..
    rw [visit_eq_of_new hdeep hmemo]
    split
    · exact List.prefix_rfl
    split
    · exact List.prefix_rfl
    split
    · exact hnext
    · rw [lookupsAt_of_memo_eq (memo_expand _ _)]
      exact hnext
  · rw [visit_eq_of_remembered hdeep hmemo, lookupsAt_of_memo_eq (memo_expand _ _)]
    exact List.prefix_rfl

/-- A step forgets no question. -/
theorem lookupsAt_step (bounds : Bounds) (source : Source N) (s : Search N) :
    s.asked.reverse <+: lookupsAt (s.step bounds source) := by
  rcases step_cases s with ⟨-, hstep⟩ | ⟨_, outer, -, -, hstep⟩ |
    ⟨_, outer, next, after, -, -, hstep⟩
  · rw [hstep]
    exact List.prefix_rfl
  · rw [hstep, lookupsAt_of_memo_eq (memo_retreat _)]
    exact List.prefix_rfl
  · rw [hstep]
    exact lookupsAt_visit bounds source { s with frames := after :: outer } next

theorem lookupsAt_of_leads {c d : Except (Outcome N) (Search N)} (h : Leads bounds source c d) :
    lookupsAt c <+: lookupsAt d := by
  induction h with
  | refl => exact List.prefix_rfl
  | tail _ hstep ih =>
    obtain ⟨s, rfl, rfl⟩ := hstep
    exact ih.trans (lookupsAt_step bounds source s)

theorem lookupsAt_runFrom {fuel : Nat} {c : Except (Outcome N) (Search N)}
    {outcome : Outcome N} (h : runFrom bounds source fuel c = some outcome) :
    lookupsAt c <+: outcome.lookups :=
  lookupsAt_of_leads (leads_of_runFrom h)

/-! ## The first question -/

theorem visit_empty_of_allowsLookup (h : bounds.AllowsLookup) :
    ({} : Search N).visit bounds source start =
      match source [] start with
      | .error cause => fail (.lookupFailed start cause) [start]
      | .ok successors =>
        .ok (({ memo := [(start, successors)] } : Search N).advance start
          |>.expand successors) := by
  have ⟨_, hcancelled, hoverdue⟩ := h
  rw [visit_eq_of_new (s := {}) h.not_deep rfl]
  simp only [List.length_nil, hcancelled, hoverdue, Bool.false_eq_true, if_false]
  rfl

theorem lookupsAt_visit_empty (source : Source N) (start : N) (h : bounds.AllowsLookup) :
    lookupsAt (({} : Search N).visit bounds source start) = [start] := by
  rw [visit_empty_of_allowsLookup h]
  split
  · rfl
  · exact lookupsAt_of_memo_eq (memo_expand _ _)

/-- Without a question there is no open frame either. -/
theorem walk_of_not_allowsLookup (source : Source N) (start : N)
    (h : ¬ bounds.AllowsLookup) :
    ∃ result, walk bounds source 1 start = some ⟨result, []⟩ := by
  by_cases hdeep : bounds.maxDepth.any (· ≤ ({} : Search N).path.length) = true
  · rw [walk, visit_eq_of_deep hdeep]
    exact ⟨_, rfl⟩
  rw [walk, visit_eq_of_new hdeep rfl]
  by_cases hcancelled : bounds.cancelled 0 = true
  · simp only [List.length_nil, if_pos hcancelled]
    exact ⟨_, rfl⟩
  by_cases hoverdue : bounds.overdue 0 = true
  · simp only [List.length_nil, if_neg hcancelled, if_pos hoverdue]
    exact ⟨_, rfl⟩
  refine absurd ⟨?_, Bool.eq_false_iff.mpr hcancelled, Bool.eq_false_iff.mpr hoverdue⟩ h
  intro hmax
  rw [hmax] at hdeep
  exact hdeep rfl

end Search

namespace Lookup

variable [DecidableEq N] (l : Lookup N) {bounds : Bounds} {start : N}

theorem lookups_walk_of_not_allowsLookup (h : ¬ bounds.AllowsLookup) :
    (l.walk bounds start).lookups = [] := by
  obtain ⟨result, hwalk⟩ := Search.walk_of_not_allowsLookup l.source start h
  rw [walk_eq hwalk]

theorem start_prefix_lookups_walk (start : N) (h : bounds.AllowsLookup) :
    [start] <+: (l.walk bounds start).lookups := by
  have hwalk := l.walk_stepBound bounds start
  rw [Search.walk_eq_runFrom] at hwalk
  rw [← Search.lookupsAt_visit_empty l.source start h]
  exact Search.lookupsAt_runFrom hwalk

theorem lookups_walk_of_sink (h : bounds.AllowsLookup) (ha : l.answer start = .ok []) :
    (l.walk bounds start).lookups = [start] := by
  have hwalk : Search.walk bounds l.source 1 start = some ⟨.ok [[start]], [start]⟩ := by
    rw [Search.walk, Search.visit_empty_of_allowsLookup h, source, ha]
    rfl
  rw [walk_eq hwalk]

end Lookup
end Walk
end CallImpact
