import CallImpact.Proofs.Walk.Ending
import CallImpact.Proofs.Walk.Lookups

/-!
# Signals stop a walk between two questions

A walk looks at its signals only before it asks a question.  So it goes the way of the same
walk without signals up to the first question before which a signal is set, and ends there
without asking it; a signal that is set at other times only is not noticed.

A source may answer anything at any time, and the walk without signals need not end.  Its
questions are therefore given by the lists that they begin with.
-/

namespace CallImpact
namespace Walk

variable {N : Type}

/-- The same bound on the hops, and no signals. -/
def Bounds.quiet (bounds : Bounds) : Bounds :=
  { maxDepth := bounds.maxDepth }

/-- A signal is set before the question that follows that many others. -/
def Bounds.Signals (bounds : Bounds) (n : Nat) : Prop :=
  bounds.cancelled n = true ∨ bounds.overdue n = true

/-- What a signal there ends the walk with; being cancelled comes first. -/
def Bounds.interruption (bounds : Bounds) (n : Nat) : Failure N :=
  if bounds.cancelled n then .cancelled else .budgetExceeded

namespace Search

variable {bounds : Bounds} {source : Source N} {start : N} {s : Search N}
  {c d : Except (Outcome N) (Search N)} {ns : List N}

theorem length_asked_reverse (s : Search N) : s.asked.reverse.length = s.memo.length := by
  rw [List.length_reverse, asked, List.length_map]

/-- After some questions a step of the walk without signals comes to the first stage, and the
step under signals to the second one: to the same stage if no question is asked or no signal is
set before it, and otherwise to the interruption. -/
inductive Heeds (bounds : Bounds) (asked : List N) (c : Except (Outcome N) (Search N)) :
    Except (Outcome N) (Search N) → Prop
  | unasked : lookupsAt c = asked → Heeds bounds asked c c
  | allowed {node : N} : lookupsAt c = asked ++ [node] → ¬ bounds.Signals asked.length →
      Heeds bounds asked c c
  | interrupted {node : N} : lookupsAt c = asked ++ [node] → bounds.Signals asked.length →
      Heeds bounds asked c (.error ⟨.error (bounds.interruption asked.length), asked⟩)

theorem Heeds.eq_of_not_signals {asked : List N} (h : Heeds bounds asked c d)
    (hnone : ∀ node, lookupsAt c = asked ++ [node] → ¬ bounds.Signals asked.length) : d = c := by
  cases h with
  | unasked _ => rfl
  | allowed _ _ => rfl
  | interrupted hc hsignals => exact absurd hsignals (hnone _ hc)

variable [DecidableEq N]

/-! ## The questions of a walk -/

/-- The questions of the walk begin with these nodes, in this order. -/
def AsksFirst (bounds : Bounds) (source : Source N) (start : N) (ns : List N) : Prop :=
  ∃ c, Stage bounds source start c ∧ ns <+: lookupsAt c

/-- If a walk has an outcome, its questions are those of the outcome. -/
theorem asksFirst_iff_of_ends {outcome : Outcome N} (h : Ends bounds source start outcome) :
    AsksFirst bounds source start ns ↔ ns <+: outcome.lookups := by
  rw [ends_iff_leads] at h
  constructor
  · rintro ⟨c, hc, hns⟩
    rcases Leads.comparable hc h with hleads | hleads
    · exact hns.trans (lookupsAt_of_leads hleads)
    · rwa [hleads.eq_of_error] at hns
  · intro hns
    exact ⟨_, h, hns⟩

/-! ## One step under signals -/

theorem ask_of_signals {node : N} (h : bounds.Signals s.asked.reverse.length) :
    s.ask bounds source node =
      .error ⟨.error (bounds.interruption s.asked.reverse.length), s.asked.reverse⟩ := by
  rw [length_asked_reverse] at h ⊢
  rw [ask_eq, Bounds.interruption]
  by_cases hcancelled : bounds.cancelled s.memo.length = true
  · rw [if_pos hcancelled, if_pos hcancelled]
    rfl
  · rw [if_neg hcancelled, if_neg hcancelled, if_pos (h.resolve_left hcancelled)]
    rfl

theorem ask_of_not_signals {node : N} (h : ¬ bounds.Signals s.asked.reverse.length) :
    s.ask bounds source node = s.ask bounds.quiet source node := by
  rw [length_asked_reverse] at h
  obtain ⟨hcancelled, hoverdue⟩ := not_or.mp h
  rw [ask_eq, if_neg hcancelled, if_neg hoverdue]
  rfl

theorem lookupsAt_ask_quiet (bounds : Bounds) (source : Source N) (s : Search N) (node : N) :
    lookupsAt (s.ask bounds.quiet source node) = s.asked.reverse ++ [node] := by
  rw [← List.reverse_cons]
  simp only [ask_eq, Bounds.quiet, Bool.false_eq_true, if_false]
  cases source s.asked node with
  | error cause => rfl
  | ok successors => exact lookupsAt_of_memo_eq (memo_expand _ successors)

theorem heeds_visit (bounds : Bounds) (source : Source N) (s : Search N) (node : N) :
    Heeds bounds s.asked.reverse (s.visit bounds.quiet source node)
      (s.visit bounds source node) := by
  by_cases hdeep : bounds.maxDepth.any (· ≤ s.path.length) = true
  · have hquiet : bounds.quiet.maxDepth.any (· ≤ s.path.length) = true := hdeep
    rw [visit_eq_of_deep hdeep, visit_eq_of_deep hquiet]
    exact .unasked (lookupsAt_of_memo_eq (memo_retreat (s.advance node).record))
  cases hmemo : s.remembered? node with
  | some successors =>
    have hquiet : ¬ bounds.quiet.maxDepth.any (· ≤ s.path.length) = true := hdeep
    rw [visit_eq_of_remembered hdeep hmemo, visit_eq_of_remembered hquiet hmemo]
    exact .unasked (lookupsAt_of_memo_eq (memo_expand (s.advance node) successors))
  | none =>
    have hvisit : ∀ b : Bounds, b.maxDepth = bounds.maxDepth →
        s.visit b source node = (s.advance node).ask b source node := by
      intro b hb
      rw [visit_eq, hb, if_neg hdeep, hmemo]
    have hasked := lookupsAt_ask_quiet bounds source (s.advance node) node
    rw [hvisit bounds rfl, hvisit bounds.quiet rfl]
    by_cases hsignals : bounds.Signals s.asked.reverse.length
    · rw [ask_of_signals (s := s.advance node) hsignals]
      exact .interrupted hasked hsignals
    · rw [ask_of_not_signals (s := s.advance node) hsignals]
      exact .allowed hasked hsignals

theorem heeds_step (bounds : Bounds) (source : Source N) (s : Search N) :
    Heeds bounds s.asked.reverse (s.step bounds.quiet source) (s.step bounds source) := by
  rcases step_cases s with ⟨-, hstep⟩ | ⟨_, outer, -, -, hstep⟩ |
    ⟨_, outer, node, after, -, -, hstep⟩
  · rw [hstep, hstep]
    exact .unasked rfl
  · rw [hstep, hstep]
    exact .unasked (lookupsAt_of_memo_eq (memo_retreat _))
  · rw [hstep, hstep]
    exact heeds_visit bounds source { s with frames := after :: outer } node

/-! ## All stages -/

/-- The walk under signals ends before the question that follows these nodes. -/
structure StopsAfter (bounds : Bounds) (source : Source N) (start : N) (ns : List N) : Prop where
  unsignalled : ∀ n < ns.length, ¬ bounds.Signals n
  signals : bounds.Signals ns.length
  stage : Stage bounds source start (.error ⟨.error (bounds.interruption ns.length), ns⟩)

/-- The walk under signals comes through the same stage without having noticed a signal, or
has ended before one of the questions. -/
def Keeps (bounds : Bounds) (source : Source N) (start : N)
    (c : Except (Outcome N) (Search N)) : Prop :=
  Stage bounds source start c ∧ (∀ n < (lookupsAt c).length, ¬ bounds.Signals n) ∨
    ∃ ns node, ns ++ [node] <+: lookupsAt c ∧ StopsAfter bounds source start ns

theorem Heeds.keeps {asked : List N} (h : Heeds bounds asked c d)
    (hd : Stage bounds source start d) (hasked : ∀ n < asked.length, ¬ bounds.Signals n) :
    Keeps bounds source start c := by
  cases h with
  | unasked hc => exact Or.inl ⟨hd, hc ▸ hasked⟩
  | allowed hc hnone =>
    refine Or.inl ⟨hd, fun n hn => ?_⟩
    rw [hc, List.length_append, List.length_singleton] at hn
    rcases Nat.lt_succ_iff_lt_or_eq.mp hn with hn | rfl
    · exact hasked n hn
    · exact hnone
  | @interrupted node hc hsignals =>
    exact Or.inr ⟨asked, node, hc ▸ List.prefix_rfl, hasked, hsignals, hd⟩

/-- The walk under signals keeps to the stages of the walk without signals until it ends. -/
theorem keeps_of_stage (h : Stage bounds.quiet source start c) :
    Keeps bounds source start c := by
  induction h with
  | refl =>
    exact (heeds_visit bounds source {} start).keeps Relation.ReflTransGen.refl
      fun n hn => absurd hn (Nat.not_lt_zero n)
  | tail _ hstep ih =>
    obtain ⟨s, rfl, rfl⟩ := hstep
    rcases ih with ⟨hstage, hs⟩ | ⟨ns, node, hns, hstops⟩
    · exact (heeds_step bounds source s).keeps hstage.step hs
    · exact Or.inr ⟨ns, node, hns.trans (lookupsAt_step bounds.quiet source s), hstops⟩

/-- If no signal is set before a question, the walk under signals goes nowhere else. -/
theorem stage_quiet_of_stage
    (hnone : ∀ ns node, AsksFirst bounds.quiet source start (ns ++ [node]) →
      ¬ bounds.Signals ns.length) (h : Stage bounds source start c) :
    Stage bounds.quiet source start c := by
  have hquiet : ∀ {asked : List N} {c : Except (Outcome N) (Search N)},
      Stage bounds.quiet source start c →
      ∀ node, lookupsAt c = asked ++ [node] → ¬ bounds.Signals asked.length :=
    fun hc node hlookups => hnone _ node ⟨_, hc, hlookups ▸ List.prefix_rfl⟩
  induction h with
  | refl =>
    rw [(heeds_visit bounds source {} start).eq_of_not_signals
      (hquiet Relation.ReflTransGen.refl)]
    exact Relation.ReflTransGen.refl
  | tail _ hstep ih =>
    obtain ⟨s, rfl, rfl⟩ := hstep
    rw [(heeds_step bounds source s).eq_of_not_signals (hquiet ih.step)]
    exact ih.step

/-! ## The outcome under signals -/

theorem ends_iff_quiet
    (hnone : ∀ ns node, AsksFirst bounds.quiet source start (ns ++ [node]) →
      ¬ bounds.Signals ns.length) (outcome : Outcome N) :
    Ends bounds source start outcome ↔ Ends bounds.quiet source start outcome := by
  rw [ends_iff_leads, ends_iff_leads]
  constructor
  · exact stage_quiet_of_stage hnone
  · intro h
    rcases keeps_of_stage h with ⟨hstage, -⟩ | ⟨ns, node, hns, hstops⟩
    · exact hstage
    · exact absurd hstops.signals (hnone ns node ⟨_, h, hns⟩)

theorem stopsAfter_of_asksFirst {node : N}
    (hasks : AsksFirst bounds.quiet source start (ns ++ [node]))
    (hnone : ∀ n < ns.length, ¬ bounds.Signals n) (hsignals : bounds.Signals ns.length) :
    StopsAfter bounds source start ns := by
  obtain ⟨c, hc, hns⟩ := hasks
  rcases keeps_of_stage hc with ⟨-, hquiet⟩ | ⟨ns', node', hns', hstops⟩
  · -- the question would have been asked in spite of the signal
    have hlt := hns.length_le
    rw [List.length_append, List.length_singleton] at hlt
    exact absurd hsignals (hquiet ns.length hlt)
  · -- both lists of questions end before the first signal
    have hlength : ns.length = ns'.length := by
      apply Nat.le_antisymm
      · exact Nat.le_of_not_lt fun hlt => hnone _ hlt hstops.signals
      · exact Nat.le_of_not_lt fun hlt => hstops.unsignalled _ hlt hsignals
    have hsame : ns = ns' := by
      have hprefix := List.prefix_of_prefix_length_le ((List.prefix_append ns [node]).trans hns)
        ((List.prefix_append ns' [node']).trans hns') hlength.le
      exact hprefix.eq_of_length hlength
    exact hsame ▸ hstops

theorem ends_iff_of_maxDepth_zero (hdepth : bounds.maxDepth = some 0) (outcome : Outcome N) :
    Ends bounds source start outcome ↔ outcome = ⟨.ok [[start]], []⟩ := by
  have hends : Ends bounds source start ⟨.ok [[start]], []⟩ := by
    refine ⟨1, ?_⟩
    rw [walk, visit_eq_of_deep (by rw [hdepth]; rfl)]
    rfl
  constructor
  · exact fun h => h.unique hends
  · rintro rfl
    exact hends

/-- A walk has the outcome of the same walk without signals unless a signal is set before one
of the questions of that walk.  Otherwise it ends before the first such question, which it does
not ask: it is cancelled if it is cancelled there, and out of time if it is not.  A walk that
asks nothing, as one without hops, pays no regard to its signals. -/
theorem walk_stops_at_first_signal (bounds : Bounds) (source : Source N) (start : N) :
    ((∀ ns node, AsksFirst bounds.quiet source start (ns ++ [node]) →
          ¬ bounds.Signals ns.length) →
        ∀ outcome, Ends bounds source start outcome ↔ Ends bounds.quiet source start outcome) ∧
      (∀ ns node, AsksFirst bounds.quiet source start (ns ++ [node]) →
        (∀ n < ns.length, ¬ bounds.Signals n) → bounds.Signals ns.length →
        ∀ outcome, Ends bounds source start outcome ↔
          outcome = ⟨.error (bounds.interruption ns.length), ns⟩) ∧
      (bounds.maxDepth = some 0 →
        ∀ outcome, Ends bounds source start outcome ↔ outcome = ⟨.ok [[start]], []⟩) := by
  refine ⟨ends_iff_quiet, ?_, ends_iff_of_maxDepth_zero⟩
  intro ns node hasks hnone hsignals outcome
  have hends := ends_iff_leads.mpr (stopsAfter_of_asksFirst hasks hnone hsignals).stage
  constructor
  · exact fun h => h.unique hends
  · rintro rfl
    exact hends

/-- From the first of four nodes two ways lead to the last one, which is not answered. -/
def forkSource : Source Nat :=
  fun _ n => if n = 0 then .ok [1, 2] else if n = 3 then .error "gone" else .ok [3]

/-- The last question is not asked if the walk is cancelled before it, and fails if the walk is
cancelled later. -/
theorem walk_stops_at_first_signal_fork :
    (∀ outcome,
        Ends { cancelled := fun n => decide (2 ≤ n), overdue := fun n => decide (2 ≤ n) }
          forkSource 0 outcome ↔ outcome = ⟨.error .cancelled, [0, 1]⟩) ∧
      (∀ outcome, Ends { cancelled := fun n => decide (3 ≤ n) } forkSource 0 outcome ↔
        Ends {} forkSource 0 outcome) ∧
      ∀ outcome, Ends { maxDepth := some 0, cancelled := fun _ => true } forkSource 0 outcome ↔
        outcome = ⟨.ok [[0]], []⟩ := by
  have hends : Ends {} forkSource 0 ⟨.error (.lookupFailed 3 "gone"), [0, 1, 3]⟩ := ⟨20, rfl⟩
  have hasks : ∀ ns, AsksFirst {} forkSource 0 ns ↔ ns <+: [0, 1, 3] :=
    fun ns => asksFirst_iff_of_ends hends
  refine ⟨?_, ?_, (walk_stops_at_first_signal _ _ _).2.2 rfl⟩
  · refine (walk_stops_at_first_signal _ _ _).2.1 [0, 1] 3 ((hasks _).mpr List.prefix_rfl) ?_ ?_
    · simp [Bounds.Signals]
    · simp [Bounds.Signals]
  · refine (walk_stops_at_first_signal _ _ _).1 fun ns node hns => ?_
    have hlength := ((hasks _).mp hns).length_le
    simp only [List.length_append, List.length_cons, List.length_nil] at hlength
    simp only [Bounds.Signals, decide_eq_true_eq, Bool.false_eq_true, or_false]
    omega

end Search
end Walk
end CallImpact
