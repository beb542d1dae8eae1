import CallImpact.Proofs.Walk.Runs
import CallImpact.Walk.Termination
import Mathlib.Data.Set.Basic

/-!
# Walks stay in closed sets

A set of nodes is closed if the answers for its nodes name nodes of the set only.  A search
that starts in a closed set holds no other nodes, whatever its bounds are, so what goes
wrong in it has a reason inside the set: a node of the set that is not answered, or one of
the two signals.  Without signals, a walk through answered nodes returns its chains.
-/

namespace CallImpact
namespace Walk

variable {N : Type}

/-- The answers for the nodes of a set name nodes of the set. -/
def ClosedUnder (answer : N → Except String (List N)) (S : Set N) : Prop :=
  ∀ node ∈ S, ∀ successors, answer node = .ok successors → ∀ n ∈ successors, n ∈ S

/-- What a walk through the nodes of a set may fail for. -/
def Failure.HasReason (answer : N → Except String (List N)) (bounds : Bounds) (S : Set N) :
    Failure N → Prop
  | .lookupFailed node cause => node ∈ S ∧ answer node = .error cause
  | .budgetExceeded => ∃ n, bounds.overdue n = true
  | .cancelled => ∃ n, bounds.cancelled n = true

namespace Search

/-- All nodes that a search holds are nodes of the set. -/
structure Within (s : Search N) (S : Set N) : Prop where
  memo_mem : ∀ entry ∈ s.memo, entry.1 ∈ S ∧ ∀ n ∈ entry.2, n ∈ S
  path_mem : ∀ n ∈ s.path, n ∈ S
  onPath_mem : ∀ n ∈ s.onPath, n ∈ S
  frames_mem : ∀ frame ∈ s.frames, ∀ n ∈ frame.successors, n ∈ S

/-- A stage of a search in a set is a search that holds nodes of the set, or an outcome
that is no failure without reason. -/
def Stays (answer : N → Except String (List N)) (bounds : Bounds) (S : Set N) :
    Except (Outcome N) (Search N) → Prop
  | .ok s => s.Within S
  | .error outcome =>
      ∀ failure, outcome.result = .error failure → failure.HasReason answer bounds S

variable {answer : N → Except String (List N)} {bounds : Bounds} {S : Set N} {s : Search N}
  {node start : N} {successors : List N}

theorem within_empty (S : Set N) : ({} : Search N).Within S := by
  constructor
  all_goals
    intro x hx
    cases hx

namespace Within

/-- A further answer does not leave the set. -/
theorem learn (hs : s.Within S) (hnode : node ∈ S) (hsucc : ∀ n ∈ successors, n ∈ S) :
    ({ s with memo := (node, successors) :: s.memo } : Search N).Within S := by
  refine ⟨fun entry hentry => ?_, hs.path_mem, hs.onPath_mem, hs.frames_mem⟩
  rcases List.mem_cons.mp hentry with rfl | hentry
  · exact ⟨hnode, hsucc⟩
  · exact hs.memo_mem entry hentry

/-- Other frames may be put in place of those of a search. -/
theorem withFrames (hs : s.Within S) {frames : List (Frame N)}
    (hframes : ∀ frame ∈ frames, ∀ n ∈ frame.successors, n ∈ S) :
    ({ s with frames } : Search N).Within S :=
  ⟨hs.memo_mem, hs.path_mem, hs.onPath_mem, hframes⟩

theorem record (hs : s.Within S) : s.record.Within S :=
  ⟨hs.memo_mem, hs.path_mem, hs.onPath_mem, hs.frames_mem⟩

variable [DecidableEq N]

theorem remembered (hs : s.Within S) (h : s.remembered? node = some successors) :
    ∀ n ∈ successors, n ∈ S :=
  (hs.memo_mem _ (lookup_mem h)).2

theorem advance (hs : s.Within S) (hnode : node ∈ S) : (s.advance node).Within S := by
  refine ⟨hs.memo_mem, fun n hn => ?_, fun n hn => ?_, hs.frames_mem⟩
  · rcases List.mem_cons.mp hn with rfl | hn
    · exact hnode
    · exact hs.path_mem n hn
  · rcases List.mem_insert_iff.mp hn with rfl | hn
    · exact hnode
    · exact hs.onPath_mem n hn

theorem retreat (hs : s.Within S) : s.retreat.Within S := by
  rw [Search.retreat]
  split
  · exact hs
  · rename_i last rest hpath
    refine ⟨hs.memo_mem, fun n hn => ?_, fun n hn => ?_, hs.frames_mem⟩
    · exact hs.path_mem n (hpath ▸ List.mem_cons_of_mem _ hn)
    · exact hs.onPath_mem n (List.mem_filter.mp hn).1

theorem expand (hs : s.Within S) (hsucc : ∀ n ∈ successors, n ∈ S) :
    (s.expand successors).Within S := by
  rw [Search.expand]
  split
  · exact hs.record.retreat
  · apply hs.withFrames
    intro frame hframe
    rcases List.mem_cons.mp hframe with rfl | hframe
    · exact hsucc
    · exact hs.frames_mem frame hframe

end Within

variable [DecidableEq N]

theorem stays_visit (bounds : Bounds) (hclosed : ClosedUnder answer S) (hs : s.Within S)
    (hnode : node ∈ S) :
    Stays answer bounds S (s.visit bounds (fun _ => answer) node) := by
  by_cases hdeep : bounds.maxDepth.any (· ≤ s.path.length) = true
  · rw [visit_eq_of_deep hdeep]
    exact (hs.advance hnode).record.retreat
  rcases visit_cases (fun _ => answer) node hdeep with
    ⟨successors, hmemo, hvisit⟩ | ⟨successors, ha, hvisit⟩ |
      ⟨failure, lookups, hvisit, hreason⟩
  · rw [hvisit]
    exact (hs.advance hnode).expand (hs.remembered hmemo)
  · have hsucc := hclosed node hnode successors ha
    rw [hvisit]
    exact ((hs.learn hnode hsucc).advance hnode).expand hsucc
  · rw [hvisit]
    intro failure' heq
    obtain rfl := Except.error.inj heq
    rcases hreason with ⟨rfl, hcancelled⟩ | ⟨rfl, hoverdue⟩ | ⟨cause, rfl, ha⟩
    · exact ⟨_, hcancelled⟩
    · exact ⟨_, hoverdue⟩
    · exact ⟨hnode, ha⟩

/-- A step of a search in a closed set stays in the set. -/
theorem stays_step (bounds : Bounds) (hclosed : ClosedUnder answer S) (hs : s.Within S) :
    Stays answer bounds S (s.step bounds (fun _ => answer)) := by
  rcases step_cases s with ⟨-, hstep⟩ | ⟨frame, outer, hframes, -, hstep⟩ |
    ⟨frame, outer, node, after, hframes, hnext, hstep⟩
  · rw [hstep]
    intro failure heq
    cases heq
  · have hmem := hs.frames_mem
    rw [hframes, List.forall_mem_cons] at hmem
    rw [hstep]
    exact (hs.withFrames hmem.2).retreat
  · have hmem := hs.frames_mem
    rw [hframes, List.forall_mem_cons] at hmem
    obtain ⟨hnode, -, hsame, -⟩ := next?_spec hnext
    have hafter : ∀ frame ∈ after :: outer, ∀ n ∈ frame.successors, n ∈ S :=
      List.forall_mem_cons.mpr ⟨hsame ▸ hmem.1, hmem.2⟩
    rw [hstep]
    exact stays_visit bounds hclosed (hs.withFrames hafter) (hmem.1 node hnode)

theorem stays_runFrom (hclosed : ClosedUnder answer S) {fuel : Nat}
    {c : Except (Outcome N) (Search N)} {outcome : Outcome N} (hc : Stays answer bounds S c)
    (h : runFrom bounds (fun _ => answer) fuel c = some outcome) :
    Stays answer bounds S (.error outcome) := by
  induction fuel generalizing c with
  | zero =>
    cases c with
    | error outcome' => exact Option.some_inj.mp h ▸ hc
    | ok s => cases h
  | succ fuel ih =>
    cases c with
    | error outcome' => exact Option.some_inj.mp h ▸ hc
    | ok s =>
      rw [runFrom, run_succ] at h
      exact ih (stays_step bounds hclosed hc) h

end Search

/-! ## Walks over lookups -/

namespace Lookup

variable [DecidableEq N] (l : Lookup N) {S : Set N} {start : N}

/-- A walk that starts in a closed set does not fail without a reason in the set. -/
theorem hasReason_of_walk (hclosed : ClosedUnder l.answer S) (hstart : start ∈ S)
    {bounds : Bounds} {failure : Failure N}
    (h : (l.walk bounds start).result = .error failure) :
    failure.HasReason l.answer bounds S := by
  have hwalk := l.walk_stepBound bounds start
  rw [Search.walk_eq_runFrom] at hwalk
  have hvisit := Search.stays_visit bounds hclosed (Search.within_empty S) hstart
  exact Search.stays_runFrom hclosed hvisit hwalk failure h

/-- A walk without signals through a closed set of answered nodes returns its chains. -/
theorem exists_walk_eq_ok (hclosed : ClosedUnder l.answer S) (hstart : start ∈ S)
    (hanswered : ∀ node ∈ S, ∃ successors, l.answer node = .ok successors)
    (maxDepth : Option Nat) :
    ∃ chains, (l.walk { maxDepth } start).result = .ok chains := by
  cases hresult : (l.walk { maxDepth } start).result with
  | ok chains => exact ⟨chains, rfl⟩
  | error failure =>
    have hreason := l.hasReason_of_walk hclosed hstart hresult
    cases failure with
    | lookupFailed node cause =>
      obtain ⟨hnode, hcause⟩ := hreason
      obtain ⟨successors, ha⟩ := hanswered node hnode
      cases hcause.symm.trans ha
    | budgetExceeded =>
      obtain ⟨n, hn⟩ := hreason
      cases hn
    | cancelled =>
      obtain ⟨n, hn⟩ := hreason
      cases hn

end Lookup
end Walk
end CallImpact
