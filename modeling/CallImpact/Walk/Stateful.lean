import CallImpact.Walk.Termination

/-!
# Walks with a state

What answers the questions of a walk may keep things in a state, as a table that it computes
at the first question.  A walk hands the state from each question to the next.  If a
question never changes what is answered, the walk over the state ends as the walk over the
answers does, and it leaves the state as its questions leave it, one after another
(`StatefulLookup.run_walk`).
-/

namespace CallImpact
namespace Walk

/-- A lookup that may change a state, but not what it answers. -/
structure StatefulLookup (σ N : Type) where
  ask : N → StateM σ (Except String (List N))
  /-- The answers that are given in a state. -/
  answers : σ → Lookup N
  answer_eq : ∀ node state, ((ask node).run state).1 = (answers state).answer node
  answers_eq : ∀ node state, answers ((ask node).run state).2 = answers state

namespace StatefulLookup

variable {σ N : Type} (l : StatefulLookup σ N)

/-- The state after a question. -/
def after (state : σ) (node : N) : σ :=
  ((l.ask node).run state).2

theorem run_ask (node : N) (state : σ) :
    (l.ask node).run state = ((l.answers state).answer node, l.after state node) :=
  Prod.ext (l.answer_eq node state) rfl

theorem answers_foldl_after (nodes : List N) (state : σ) :
    l.answers (nodes.foldl l.after state) = l.answers state := by
  induction nodes generalizing state with
  | nil => rfl
  | cons node rest ih =>
    rw [List.foldl_cons, ih]
    exact l.answers_eq node state

/-- From the state the computation comes to the stage, with questions about the nodes that the
stage has beyond those asked about before. -/
def Reaches (state : σ) (s : Search N) (computation : StateM σ (Except (Outcome N) (Search N)))
    (stage : Except (Outcome N) (Search N)) : Prop :=
  ∃ nodes, Search.lookupsAt stage = s.asked.reverse ++ nodes ∧
    computation.run state = (stage, nodes.foldl l.after state)

variable {l} {bounds : Bounds} {start : N} {s t : Search N} {state : σ}
  {stage : Except (Outcome N) (Search N)}

theorem reaches_pure (h : Search.lookupsAt stage = s.asked.reverse) :
    l.Reaches state s (pure stage) stage :=
  ⟨[], by rw [h, List.append_nil], rfl⟩

theorem Reaches.stage_eq {computation : StateM σ (Except (Outcome N) (Search N))}
    {stage' : Except (Outcome N) (Search N)} {state' : σ}
    (h : l.Reaches state s computation stage) (hrun : computation.run state = (stage', state')) :
    stage = stage' ∧ l.answers state' = l.answers state := by
  obtain ⟨nodes, -, hreach⟩ := h
  obtain ⟨rfl, rfl⟩ := Prod.mk.inj (hreach.symm.trans hrun)
  exact ⟨rfl, l.answers_foldl_after nodes state⟩

variable [DecidableEq N]

theorem reaches_askM (l : StatefulLookup σ N) (bounds : Bounds) (s : Search N) (node : N)
    (state : σ) :
    l.Reaches state s (s.askM bounds l.ask node)
      (s.ask bounds (l.answers state).source node) := by
  rw [Search.askM, Search.ask_eq]
  split
  · exact reaches_pure rfl
  split
  · exact reaches_pure rfl
  refine ⟨[node], ?_, ?_⟩
  · rw [← List.reverse_cons, Lookup.source]
    cases (l.answers state).answer node with
    | error cause => rfl
    | ok successors => exact Search.lookupsAt_of_memo_eq (Search.memo_expand _ successors)
  · rw [StateT.run_bind, l.run_ask]
    rfl

theorem reaches_visitM (l : StatefulLookup σ N) (bounds : Bounds) (s : Search N) (node : N)
    (state : σ) :
    l.Reaches state s (s.visitM bounds l.ask node)
      (s.visit bounds (l.answers state).source node) := by
  rw [Search.visitM, Search.visit_eq]
  split
  · exact reaches_pure (Search.lookupsAt_of_memo_eq (Search.memo_retreat (s.advance node).record))
  cases s.remembered? node with
  | some successors =>
    have hmemo := Search.memo_expand (s.advance node) successors
    exact reaches_pure (Search.lookupsAt_of_memo_eq hmemo)
  | none => exact reaches_askM l bounds (s.advance node) node state

theorem reaches_stepM (l : StatefulLookup σ N) (bounds : Bounds) (s : Search N) (state : σ) :
    l.Reaches state s (s.stepM bounds l.ask) (s.step bounds (l.answers state).source) := by
  cases hframes : s.frames with
  | nil =>
    rw [Search.step_of_nil hframes, Search.stepM, hframes]
    exact reaches_pure rfl
  | cons frame outer =>
    cases hnext : Search.next? s.onPath frame with
    | none =>
      rw [Search.step_of_done hframes hnext, Search.stepM_of_done hframes hnext]
      exact reaches_pure (Search.lookupsAt_of_memo_eq (Search.memo_retreat _))
    | some next =>
      rw [Search.step_of_next hframes hnext, Search.stepM_of_next hframes hnext]
      exact reaches_visitM l bounds { s with frames := next.2 :: outer } next.1 state

/-! ## Whole walks -/

/-- Steps over a state keep what fits and lower the potential, since they are steps over the
answers. -/
theorem stepM_lowers {state' : σ} (hs : s.Fits (l.answers state) bounds start)
    (h : (s.stepM bounds l.ask).run state = (.ok t, state')) :
    t.Fits (l.answers state') bounds start ∧
      potential (l.answers state').degree ((l.answers state').room bounds) t.frames <
        potential (l.answers state).degree ((l.answers state).room bounds) s.frames := by
  obtain ⟨hstep, hanswers⟩ := (reaches_stepM l bounds s state).stage_eq h
  rw [hanswers]
  exact Search.step_lowers hs hstep

/-- The outcome of a search over a state, and the state in the end. -/
def finish (l : StatefulLookup σ N) (bounds : Bounds) (start : N) (s : Search N) (state : σ)
    (hs : s.Fits (l.answers state) bounds start) : Outcome N × σ :=
  match h : (s.stepM bounds l.ask).run state with
  | (.error outcome, state') => (outcome, state')
  | (.ok t, state') => finish l bounds start t state' (stepM_lowers hs h).1
termination_by potential (l.answers state).degree ((l.answers state).room bounds) s.frames
decreasing_by exact (stepM_lowers hs h).2

section Ending

variable {state' : σ} {outcome : Outcome N}

theorem finish_of_error (hs : s.Fits (l.answers state) bounds start)
    (h : (s.stepM bounds l.ask).run state = (.error outcome, state')) :
    l.finish bounds start s state hs = (outcome, state') := by
  rw [finish]
  split
  · rename_i hstep
    cases hstep.symm.trans h
    rfl
  · rename_i hstep
    cases hstep.symm.trans h

theorem finish_of_ok (hs : s.Fits (l.answers state) bounds start)
    (h : (s.stepM bounds l.ask).run state = (.ok t, state')) :
    l.finish bounds start s state hs =
      l.finish bounds start t state' (stepM_lowers hs h).1 := by
  rw [finish]
  split
  · rename_i hstep
    cases hstep.symm.trans h
  · rename_i hstep
    cases hstep.symm.trans h
    rfl

/-- Over a state a search ends as it does over the answers. -/
theorem finish_eq {answers : Lookup N} (hs : s.Fits answers bounds start)
    (hanswers : l.answers state = answers) :
    ∃ nodes, (s.finish answers bounds start hs).lookups = s.asked.reverse ++ nodes ∧
      l.finish bounds start s state (hanswers ▸ hs) =
        (s.finish answers bounds start hs, nodes.foldl l.after state) := by
  -- along the steps over the answers, whose state may be any that gives these answers
  induction s, hs using Search.finish.induct (l := answers) generalizing state with
  | case1 s hs outcome hstep =>
    obtain ⟨nodes, hlookups, hrun⟩ := reaches_stepM l bounds s state
    rw [hanswers, hstep] at hlookups hrun
    rw [Search.finish_of_error hs hstep, finish_of_error _ hrun]
    exact ⟨nodes, hlookups, rfl⟩
  | case2 s hs t hstep ih =>
    obtain ⟨nodes, hlookups, hrun⟩ := reaches_stepM l bounds s state
    rw [hanswers, hstep] at hlookups hrun
    have hafter := (l.answers_foldl_after nodes state).trans hanswers
    obtain ⟨others, hothers, hfinish⟩ := ih hafter
    rw [Search.finish_of_ok hs hstep, finish_of_ok _ hrun, hfinish, hothers]
    refine ⟨nodes ++ others, ?_, ?_⟩
    · rw [← List.append_assoc, ← hlookups, Search.lookupsAt]
    · rw [List.foldl_append]

theorem visitM_fits
    (h : (({} : Search N).visitM bounds l.ask start).run state = (.ok s, state')) :
    s.Fits (l.answers state') bounds start := by
  obtain ⟨hvisit, hanswers⟩ := (reaches_visitM l bounds {} start state).stage_eq h
  rw [hanswers]
  exact Search.fits_of_visit_empty hvisit

/-- A walk that hands the state from one question to the next. -/
def walk (l : StatefulLookup σ N) (bounds : Bounds) (start : N) : StateM σ (Outcome N) :=
  fun state =>
    match h : (({} : Search N).visitM bounds l.ask start).run state with
    | (.error outcome, state') => (outcome, state')
    | (.ok s, state') => l.finish bounds start s state' (visitM_fits h)

theorem walk_of_error
    (h : (({} : Search N).visitM bounds l.ask start).run state = (.error outcome, state')) :
    (l.walk bounds start).run state = (outcome, state') := by
  rw [StateT.run, walk]
  split
  · rename_i hvisit
    cases hvisit.symm.trans h
    rfl
  · rename_i hvisit
    cases hvisit.symm.trans h

theorem walk_of_ok
    (h : (({} : Search N).visitM bounds l.ask start).run state = (.ok s, state')) :
    (l.walk bounds start).run state = l.finish bounds start s state' (visitM_fits h) := by
  rw [StateT.run, walk]
  split
  · rename_i hvisit
    cases hvisit.symm.trans h
  · rename_i hvisit
    cases hvisit.symm.trans h
    rfl

end Ending

/-- A walk over a state has the outcome of the walk over the answers, and leaves the state that
its questions leave, one after another. -/
theorem run_walk (l : StatefulLookup σ N) (bounds : Bounds) (start : N) (state : σ) :
    (l.walk bounds start).run state =
      ((l.answers state).walk bounds start,
        ((l.answers state).walk bounds start).lookups.foldl l.after state) := by
  obtain ⟨nodes, hlookups, hrun⟩ := reaches_visitM l bounds {} start state
  cases hvisit : ({} : Search N).visit bounds (l.answers state).source start with
  | error outcome =>
    rw [hvisit] at hlookups hrun
    change outcome.lookups = nodes at hlookups
    rw [Lookup.walk_of_error hvisit, walk_of_error hrun, hlookups]
  | ok s =>
    rw [hvisit] at hlookups hrun
    change s.asked.reverse = nodes at hlookups
    obtain ⟨others, hothers, hfinish⟩ :=
      finish_eq (Search.fits_of_visit_empty hvisit) (l.answers_foldl_after nodes state)
    rw [Lookup.walk_of_ok hvisit, walk_of_ok hrun, hfinish, hothers, hlookups,
      List.foldl_append]

end StatefulLookup
end Walk
end CallImpact
