import CallImpact.Proofs.Support.Lists
import CallImpact.Proofs.Walk.Closed
import Mathlib.Data.Set.Function

/-!
# Walks under new names of the nodes

Two lookups may answer the same questions about the same nodes under different names.  If
the names are different for different nodes of a closed set, then a walk that starts in the
set and the walk that starts at the new name of its start go the same way, step by step: the
path, its set of nodes, the memory and the frames of the one are those of the other under
the new names, and so is the outcome.
-/

namespace CallImpact
namespace Walk

variable {N M : Type}

def Failure.map (f : N → M) : Failure N → Failure M
  | .lookupFailed node cause => .lookupFailed (f node) cause
  | .budgetExceeded => .budgetExceeded
  | .cancelled => .cancelled

/-- The outcome with every node replaced by its new name. -/
def Outcome.map (f : N → M) (outcome : Outcome N) : Outcome M where
  result := (outcome.result.mapError (Failure.map f)).map (List.map (List.map f))
  lookups := outcome.lookups.map f

def Frame.map (f : N → M) (frame : Frame N) : Frame M :=
  ⟨frame.successors.map f, frame.taken⟩

/-- The second lookup answers for the nodes of a set as the first one does, under their new
names, which are different for different nodes. -/
structure Renames (f : N → M) (S : Set N) (answer : N → Except String (List N))
    (answer' : M → Except String (List M)) : Prop where
  closed : ClosedUnder answer S
  injOn : Set.InjOn f S
  answer_eq : ∀ node ∈ S, answer' (f node) = (answer node).map (List.map f)

namespace Search

/-- The search with every node replaced by its new name. -/
def map (f : N → M) (s : Search N) : Search M where
  memo := s.memo.map fun entry => (f entry.1, entry.2.map f)
  path := s.path.map f
  onPath := s.onPath.map f
  frames := s.frames.map (Frame.map f)
  found := s.found.map (List.map f)

/-- A stage of a search with every node replaced by its new name. -/
def mapStage (f : N → M) :
    Except (Outcome N) (Search N) → Except (Outcome M) (Search M)
  | .ok s => .ok (s.map f)
  | .error outcome => .error (outcome.map f)

variable {f : N → M} {S : Set N} {s : Search N} {node : N} {nodes successors : List N}

/-! ## Parts of a search -/

theorem asked_map (f : N → M) (s : Search N) : (s.map f).asked = s.asked.map f := by
  simp only [asked, map, List.map_map, Function.comp_def]

theorem map_record (f : N → M) (s : Search N) : s.record.map f = (s.map f).record := by
  simp only [record, map, List.map_cons, List.map_reverse]

theorem mapStage_fail (f : N → M) (failure : Failure N) (asked : List N) :
    mapStage f (fail failure asked) = fail (failure.map f) (asked.map f) := by
  simp only [fail, mapStage, Outcome.map, List.map_reverse]
  rfl

theorem mem_map_iff (hf : Set.InjOn f S) (hnode : node ∈ S) (hnodes : ∀ n ∈ nodes, n ∈ S) :
    f node ∈ nodes.map f ↔ node ∈ nodes := by
  rw [List.mem_map]
  constructor
  · rintro ⟨n, hn, heq⟩
    exact hf (hnodes n hn) hnode heq ▸ hn
  · intro hmem
    exact ⟨node, hmem, rfl⟩

theorem lookup_map [DecidableEq N] [DecidableEq M] {memo : List (N × List N)}
    (hf : Set.InjOn f S) (hnode : node ∈ S) (hmemo : ∀ entry ∈ memo, entry.1 ∈ S) :
    (memo.map fun entry => (f entry.1, entry.2.map f)).lookup (f node) =
      (memo.lookup node).map (List.map f) := by
  induction memo with
  | nil => rfl
  | cons entry memo ih =>
    obtain ⟨hentry, hmemo⟩ := List.forall_mem_cons.mp hmemo
    have hbeq : (f node == f entry.1) = (node == entry.1) := by
      rw [Bool.eq_iff_iff, beq_iff_eq, beq_iff_eq]
      exact hf.eq_iff hnode hentry
    rw [List.map_cons, List.lookup_cons, List.lookup_cons, hbeq]
    split
    · rfl
    · exact ih hmemo

variable [DecidableEq N] [DecidableEq M]

theorem next?_map {onPath : List N} {frame : Frame N} (hf : Set.InjOn f S)
    (honPath : ∀ n ∈ onPath, n ∈ S) (hframe : ∀ n ∈ frame.successors, n ∈ S) :
    next? (onPath.map f) (frame.map f) =
      (next? onPath frame).map fun next => (f next.1, next.2.map f) := by
  have hdrop : ((frame.map f).successors.drop (frame.map f).taken).dropWhile
        (fun n => decide (n ∈ onPath.map f)) =
      ((frame.successors.drop frame.taken).dropWhile fun n => decide (n ∈ onPath)).map f := by
    rw [Frame.map, ← List.map_drop, List.dropWhile_map]
    congr 1
    apply dropWhile_congr
    intro n hn
    exact decide_eq_decide.mpr (mem_map_iff hf (hframe n (List.mem_of_mem_drop hn)) honPath)
  simp only [next?, hdrop]
  cases (frame.successors.drop frame.taken).dropWhile fun n => decide (n ∈ onPath) with
  | nil => rfl
  | cons node rest =>
    simp only [Frame.map, List.map_cons, ← List.map_drop, List.length_map, Option.map_some]

theorem map_advance (hf : Set.InjOn f S) (hs : s.Within S) (hnode : node ∈ S) :
    (s.advance node).map f = (s.map f).advance (f node) := by
  have hinsert : (s.onPath.insert node).map f = (s.onPath.map f).insert (f node) := by
    by_cases hmem : node ∈ s.onPath
    · rw [List.insert_of_mem hmem, List.insert_of_mem (List.mem_map_of_mem hmem)]
    · have hnew : f node ∉ s.onPath.map f :=
        fun h => hmem ((mem_map_iff hf hnode hs.onPath_mem).mp h)
      rw [List.insert_of_not_mem hmem, List.insert_of_not_mem hnew, List.map_cons]
  simp only [advance, map, hinsert, List.map_cons]

theorem map_retreat (hf : Set.InjOn f S) (hs : s.Within S) :
    s.retreat.map f = (s.map f).retreat := by
  cases hpath : s.path with
  | nil => simp only [retreat, map, hpath, List.map_nil]
  | cons last rest =>
    have hlast : last ∈ S := hs.path_mem last (hpath ▸ List.mem_cons_self ..)
    have hfilter : (s.onPath.filter fun n => decide (n ≠ last)).map f =
        (s.onPath.map f).filter fun n => decide (n ≠ f last) := by
      rw [List.filter_map]
      congr 1
      apply List.filter_congr
      intro n hn
      exact decide_eq_decide.mpr (not_congr (hf.eq_iff (hs.onPath_mem n hn) hlast).symm)
    simp only [retreat, map, hpath, List.map_cons, hfilter]

theorem map_leave (hf : Set.InjOn f S) (hs : s.Within S) :
    s.record.retreat.map f = (s.map f).record.retreat := by
  rw [map_retreat hf hs.record, map_record]

theorem map_expand (hf : Set.InjOn f S) (hs : s.Within S) (successors : List N) :
    (s.expand successors).map f = (s.map f).expand (successors.map f) := by
  cases successors with
  | nil => exact map_leave hf hs
  | cons first others => rfl

/-! ## Steps -/

variable {answer : N → Except String (List N)} {answer' : M → Except String (List M)}

theorem map_visit (bounds : Bounds) (h : Renames f S answer answer') (hs : s.Within S)
    (hnode : node ∈ S) :
    mapStage f (s.visit bounds (fun _ => answer) node) =
      (s.map f).visit bounds (fun _ => answer') (f node) := by
  have hadvance := map_advance h.injOn hs hnode
  have hlength : (s.map f).path.length = s.path.length := List.length_map ..
  by_cases hdeep : bounds.maxDepth.any (· ≤ s.path.length) = true
  · have hdeep' : bounds.maxDepth.any (· ≤ (s.map f).path.length) = true := by rwa [hlength]
    rw [visit_eq_of_deep hdeep, visit_eq_of_deep hdeep', ← hadvance]
    exact congrArg Except.ok (map_leave h.injOn (hs.advance hnode))
  have hdeep' : ¬ bounds.maxDepth.any (· ≤ (s.map f).path.length) = true := by rwa [hlength]
  have hremembered : (s.map f).remembered? (f node) = (s.remembered? node).map (List.map f) :=
    lookup_map h.injOn hnode fun entry hentry => (hs.memo_mem entry hentry).1
  cases hmemo : s.remembered? node with
  | some successors =>
    rw [hmemo] at hremembered
    rw [visit_eq_of_remembered hdeep hmemo, visit_eq_of_remembered hdeep' hremembered,
      ← hadvance]
    exact congrArg Except.ok (map_expand h.injOn (hs.advance hnode) successors)
  | none =>
    have hasked : (s.map f).memo.length = s.memo.length := List.length_map ..
    rw [hmemo] at hremembered
    rw [visit_eq_of_new hdeep hmemo, visit_eq_of_new hdeep' hremembered, hasked, asked_map,
      h.answer_eq node hnode]
    by_cases hcancelled : bounds.cancelled s.memo.length = true
    · rw [if_pos hcancelled, if_pos hcancelled]
      exact mapStage_fail f .cancelled s.asked
    rw [if_neg hcancelled, if_neg hcancelled]
    by_cases hoverdue : bounds.overdue s.memo.length = true
    · rw [if_pos hoverdue, if_pos hoverdue]
      exact mapStage_fail f .budgetExceeded s.asked
    rw [if_neg hoverdue, if_neg hoverdue]
    cases ha : answer node with
    | error cause => exact mapStage_fail f (.lookupFailed node cause) (node :: s.asked)
    | ok successors =>
      have hlearn := hs.learn hnode (h.closed node hnode successors ha)
      have hexpand := map_expand h.injOn (hlearn.advance hnode) successors
      rw [map_advance h.injOn hlearn hnode] at hexpand
      exact congrArg Except.ok hexpand

/-- A step under the new names is the step with its nodes renamed. -/
theorem map_step (bounds : Bounds) (h : Renames f S answer answer') (hs : s.Within S) :
    mapStage f (s.step bounds (fun _ => answer)) =
      (s.map f).step bounds (fun _ => answer') := by
  cases hframes : s.frames with
  | nil =>
    have hframes' : (s.map f).frames = [] := congrArg (List.map (Frame.map f)) hframes
    rw [step_of_nil hframes, step_of_nil hframes']
    simp only [mapStage, finished, Outcome.map, asked_map, List.map_reverse]
    simp only [map, Except.mapError, Except.map, List.map_reverse]
  | cons frame outer =>
    have hframes' : (s.map f).frames = frame.map f :: outer.map (Frame.map f) :=
      congrArg (List.map (Frame.map f)) hframes
    have hmem := hs.frames_mem
    rw [hframes] at hmem
    obtain ⟨hframe, houter⟩ := List.forall_mem_cons.mp hmem
    have hnext' := next?_map h.injOn hs.onPath_mem hframe
    cases hnext : next? s.onPath frame with
    | none =>
      rw [hnext] at hnext'
      rw [step_of_done hframes hnext, step_of_done hframes' hnext']
      exact congrArg Except.ok (map_retreat h.injOn (hs.withFrames houter))
    | some next =>
      obtain ⟨node, after⟩ := next
      obtain ⟨hnode, -, hsame, -⟩ := next?_spec hnext
      rw [hnext] at hnext'
      have hafter : ∀ frame ∈ after :: outer, ∀ n ∈ frame.successors, n ∈ S :=
        List.forall_mem_cons.mpr ⟨hsame ▸ hframe, houter⟩
      rw [step_of_next hframes hnext, step_of_next hframes' hnext']
      exact map_visit bounds h (hs.withFrames hafter) (hframe node hnode)

theorem runFrom_mapStage {bounds : Bounds} (h : Renames f S answer answer') (fuel : Nat)
    {c : Except (Outcome N) (Search N)} (hc : Stays answer bounds S c) :
    runFrom bounds (fun _ => answer') fuel (mapStage f c) =
      (runFrom bounds (fun _ => answer) fuel c).map (Outcome.map f) := by
  induction fuel generalizing c with
  | zero => cases c <;> rfl
  | succ fuel ih =>
    cases c with
    | error outcome => rfl
    | ok s =>
      have hstep := ih (stays_step bounds h.closed hc)
      rw [map_step bounds h hc] at hstep
      rw [mapStage, runFrom, run_succ, runFrom, run_succ]
      exact hstep

end Search

/-- The walk from the new name of a node is the walk from the node under the new names. -/
theorem Lookup.walk_map [DecidableEq N] [DecidableEq M] {f : N → M} {S : Set N}
    {l : Lookup N} {l' : Lookup M} (h : Renames f S l.answer l'.answer) (bounds : Bounds)
    {start : N} (hstart : start ∈ S) :
    l'.walk bounds (f start) = (l.walk bounds start).map f := by
  have hempty := Search.within_empty S
  have hwalk := l.walk_stepBound bounds start
  have hrun := Search.runFrom_mapStage h (l.stepBound bounds)
    (Search.stays_visit bounds h.closed hempty hstart)
  rw [Search.walk_eq_runFrom] at hwalk
  rw [Search.map_visit bounds h hempty hstart] at hrun
  have hwalk' : Search.walk bounds l'.source (l.stepBound bounds) (f start) =
      some ((l.walk bounds start).map f) := by
    rw [Search.walk_eq_runFrom]
    exact hrun.trans (congrArg (Option.map (Outcome.map f)) hwalk)
  exact walk_eq hwalk'

end Walk
end CallImpact
