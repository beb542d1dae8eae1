import CallImpact.Walk.Search
import Mathlib.Data.List.TakeWhile
import Mathlib.Logic.Relation

/-!
# Runs of a search

A walk has an outcome if its search comes to an end after finitely many steps.  Here the
steps of a search are a relation between its stages, and a stage that steps lead to an
outcome has that outcome and no other one.

The other lemmas say what one step does to a search with an open frame: it enters the
first of the remaining successors or leaves the node of the frame.
-/

namespace CallImpact
namespace Walk
namespace Search

variable {N : Type} [DecidableEq N]

/-- The walk has the outcome after finitely many steps. -/
def Ends (bounds : Bounds) (source : Source N) (start : N) (outcome : Outcome N) : Prop :=
  ∃ fuel, Search.walk bounds source fuel start = some outcome

/-- The outcome of a search under way, or the one it already has. -/
def runFrom (bounds : Bounds) (source : Source N) (fuel : Nat) :
    Except (Outcome N) (Search N) → Option (Outcome N)
  | .error outcome => some outcome
  | .ok s => run bounds source fuel s

/-- Steps lead from one stage of a search to another one. -/
def Leads (bounds : Bounds) (source : Source N) :
    Except (Outcome N) (Search N) → Except (Outcome N) (Search N) → Prop :=
  Relation.ReflTransGen fun c d => ∃ s, c = .ok s ∧ d = s.step bounds source

variable {bounds : Bounds} {source : Source N} {start : N}

theorem run_succ (fuel : Nat) (s : Search N) :
    run bounds source (fuel + 1) s = runFrom bounds source fuel (s.step bounds source) := by
  rw [run]
  cases s.step bounds source <;> rfl

theorem walk_eq_runFrom (fuel : Nat) :
    walk bounds source fuel start =
      runFrom bounds source fuel (({} : Search N).visit bounds source start) := by
  rw [walk]
  cases ({} : Search N).visit bounds source start <;> rfl

theorem runFrom_unique {fuel₁ fuel₂ : Nat} {c : Except (Outcome N) (Search N)}
    {outcome₁ outcome₂ : Outcome N} (h₁ : runFrom bounds source fuel₁ c = some outcome₁)
    (h₂ : runFrom bounds source fuel₂ c = some outcome₂) : outcome₁ = outcome₂ := by
  induction fuel₁ generalizing c fuel₂ with
  | zero =>
    cases c with
    | error outcome => exact Option.some_inj.mp (h₁.symm.trans h₂)
    | ok s => cases h₁
  | succ fuel₁ ih =>
    cases c with
    | error outcome => exact Option.some_inj.mp (h₁.symm.trans h₂)
    | ok s =>
      cases fuel₂ with
      | zero => cases h₂
      | succ fuel₂ =>
        rw [runFrom, run_succ] at h₁ h₂
        exact ih h₁ h₂

theorem Ends.unique {outcome₁ outcome₂ : Outcome N} (h₁ : Ends bounds source start outcome₁)
    (h₂ : Ends bounds source start outcome₂) : outcome₁ = outcome₂ := by
  obtain ⟨fuel₁, h₁⟩ := h₁
  obtain ⟨fuel₂, h₂⟩ := h₂
  rw [walk_eq_runFrom] at h₁ h₂
  exact runFrom_unique h₁ h₂

theorem exists_runFrom_of_leads {c : Except (Outcome N) (Search N)} {outcome : Outcome N}
    (h : Leads bounds source c (.error outcome)) :
    ∃ fuel, runFrom bounds source fuel c = some outcome := by
  induction h using Relation.ReflTransGen.head_induction_on with
  | refl => exact ⟨0, rfl⟩
  | head hstep _ ih =>
    obtain ⟨s, rfl, rfl⟩ := hstep
    obtain ⟨fuel, hfuel⟩ := ih
    exact ⟨fuel + 1, by rw [runFrom, run_succ, hfuel]⟩

theorem leads_of_runFrom {fuel : Nat} {c : Except (Outcome N) (Search N)} {outcome : Outcome N}
    (h : runFrom bounds source fuel c = some outcome) :
    Leads bounds source c (.error outcome) := by
  induction fuel generalizing c with
  | zero =>
    cases c with
    | error outcome' => exact Option.some_inj.mp h ▸ Relation.ReflTransGen.refl
    | ok s => cases h
  | succ fuel ih =>
    cases c with
    | error outcome' => exact Option.some_inj.mp h ▸ Relation.ReflTransGen.refl
    | ok s =>
      rw [runFrom, run_succ] at h
      exact Relation.ReflTransGen.head ⟨s, rfl, rfl⟩ (ih h)

/-- A walk has the outcomes that its steps lead to. -/
theorem ends_iff_leads {outcome : Outcome N} :
    Ends bounds source start outcome ↔
      Leads bounds source (({} : Search N).visit bounds source start) (.error outcome) := by
  simp only [Ends, walk_eq_runFrom]
  exact ⟨fun ⟨_, h⟩ => leads_of_runFrom h, exists_runFrom_of_leads⟩

/-- Of two stages that one stage leads to, one leads to the other. -/
theorem Leads.comparable {c d e : Except (Outcome N) (Search N)}
    (hd : Leads bounds source c d) (he : Leads bounds source c e) :
    Leads bounds source d e ∨ Leads bounds source e d := by
  refine Relation.ReflTransGen.total_of_right_unique ?_ hd he
  rintro _ _ _ ⟨s, rfl, rfl⟩ ⟨t, heq, rfl⟩
  rw [Except.ok.inj heq]

theorem Leads.eq_of_error {d : Except (Outcome N) (Search N)} {outcome : Outcome N}
    (h : Leads bounds source (.error outcome) d) : d = .error outcome := by
  rcases Relation.ReflTransGen.cases_head h with heq | ⟨_, ⟨s, hs, -⟩, -⟩
  · exact heq.symm
  · cases hs

theorem Leads.head_step {s : Search N} {d : Except (Outcome N) (Search N)}
    (h : Leads bounds source (s.step bounds source) d) : Leads bounds source (.ok s) d :=
  Relation.ReflTransGen.head ⟨s, rfl, rfl⟩ h

/-- Whatever its bounds and its source, a search without frames is finished, and another one
leaves its top node or enters the next successor of its top frame. -/
theorem step_cases (s : Search N) :
    (s.frames = [] ∧ ∀ bounds source, s.step bounds source = .error s.finished) ∨
      (∃ frame outer, s.frames = frame :: outer ∧ next? s.onPath frame = none ∧
        ∀ bounds source,
          s.step bounds source = .ok ({ s with frames := outer } : Search N).retreat) ∨
      ∃ frame outer node after, s.frames = frame :: outer ∧
        next? s.onPath frame = some (node, after) ∧
        ∀ bounds source, s.step bounds source =
          ({ s with frames := after :: outer } : Search N).visit bounds source node := by
  cases hframes : s.frames with
  | nil =>
    exact Or.inl ⟨rfl, fun _ _ => step_of_nil hframes⟩
  | cons frame outer =>
    refine Or.inr ?_
    cases hnext : next? s.onPath frame with
    | none => exact Or.inl ⟨frame, outer, rfl, hnext, fun _ _ => step_of_done hframes hnext⟩
    | some next =>
      obtain ⟨node, after⟩ := next
      exact Or.inr ⟨frame, outer, node, after, rfl, hnext, fun _ _ => step_of_next hframes hnext⟩

/-! ## The next successor -/

/-- The successors that a search may still enter. -/
def remaining (onPath : List N) (frame : Frame N) : List N :=
  (frame.successors.drop frame.taken).filter (· ∉ onPath)

theorem next?_eq_none {onPath : List N} {frame : Frame N}
    (h : remaining onPath frame = []) : next? onPath frame = none := by
  have hdrop : (frame.successors.drop frame.taken).dropWhile (· ∈ onPath) = [] := by
    rw [List.dropWhile_eq_nil_iff]
    intro n hn
    have hout := List.filter_eq_nil_iff.mp h n hn
    simpa using hout
  simp only [next?, hdrop]

theorem next?_eq_some {onPath : List N} {frame : Frame N} {node : N} {nodes : List N}
    (h : remaining onPath frame = node :: nodes) :
    ∃ after, next? onPath frame = some (node, after) ∧ remaining onPath after = nodes := by
  obtain ⟨passed, rest, hpending, hpassed, hnode, hrest⟩ := List.filter_eq_cons_iff.mp h
  have hdrop : (frame.successors.drop frame.taken).dropWhile (· ∈ onPath) = node :: rest := by
    rw [hpending, List.dropWhile_append_of_pos (fun n hn => by simpa using hpassed n hn),
      List.dropWhile_cons_of_neg (by simpa using hnode)]
  have hcount : (frame.successors.drop frame.taken).length - rest.length =
      (passed ++ [node]).length := by
    rw [hpending, List.length_append, List.length_append, List.length_cons,
      List.length_singleton]
    omega
  have hafter : (frame.successors.drop frame.taken).drop (passed ++ [node]).length = rest := by
    rw [hpending, List.append_cons passed node rest, List.drop_append_length]
  refine ⟨{ frame with taken := frame.taken + (passed ++ [node]).length }, ?_, ?_⟩
  · simp only [next?, hdrop, hcount]
  · rw [List.drop_drop] at hafter
    rw [remaining, hafter, hrest]

variable {s : Search N} {node : N}

/-- Opens a frame. -/
def push (s : Search N) (frame : Frame N) : Search N :=
  { s with frames := frame :: s.frames }

theorem step_push_of_next {frame after : Frame N}
    (h : next? s.onPath frame = some (node, after)) :
    (s.push frame).step bounds source = (s.push after).visit bounds source node :=
  step_of_next rfl h

theorem step_push_of_done {frame : Frame N} (h : next? s.onPath frame = none) :
    (s.push frame).step bounds source = .ok s.retreat :=
  step_of_done rfl h

end Search
end Walk
end CallImpact
