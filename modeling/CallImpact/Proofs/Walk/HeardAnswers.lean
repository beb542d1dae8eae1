import CallImpact.Proofs.Walk.Signals
import CallImpact.Proofs.Walk.SimplePaths

/-!
# A walk that succeeds goes along the answers it heard

A source may change its answers, and signals may be set.  A walk that nevertheless returns
chains has heard one answer for each node that it asked about.  If these answers are fixed, and
the other nodes have no successors, then the walk without signals comes through the same
searches: where the walk asked, the fixed answer is the one that it heard, and elsewhere it did
not look at its source.  So what walks along fixed answers return, all walks return.
-/

namespace CallImpact
namespace Walk
namespace Search

variable {N : Type} [DecidableEq N]

/-- The nodes that are remembered have the successors that are remembered for them. -/
def Agrees (successors : N → List N) (memo : List (N × List N)) : Prop :=
  ∀ node answer, memo.lookup node = some answer → successors node = answer

/-- The remembered successors, none for a node that was not asked about. -/
def heard (memo : List (N × List N)) (node : N) : List N :=
  (memo.lookup node).getD []

variable {bounds : Bounds} {source : Source N} {start node : N} {s t : Search N}
  {memo : List (N × List N)} {successors : N → List N} {answer lookups : List N}
  {chains : List (List N)}

theorem agrees_heard (memo : List (N × List N)) : Agrees (heard memo) memo := by
  intro node answer hlookup
  rw [heard, hlookup, Option.getD_some]

/-- A new answer for another node changes nothing about what is remembered. -/
theorem lookup_cons_of_lookup {other : N} {answer' : List N} (hnew : memo.lookup node = none)
    (h : memo.lookup other = some answer') :
    List.lookup other ((node, answer) :: memo) = some answer' := by
  have hne : other ≠ node := by
    rintro rfl
    cases hnew.symm.trans h
  rw [List.lookup_cons, beq_false_of_ne hne]
  exact h

theorem Agrees.of_cons (hnew : memo.lookup node = none)
    (h : Agrees successors ((node, answer) :: memo)) :
    successors node = answer ∧ Agrees successors memo := by
  constructor
  · apply h
    rw [List.lookup_cons_self]
  · intro other answer' hother
    exact h other answer' (lookup_cons_of_lookup hnew hother)

/-- Along the remembered successors only finitely many nodes are reached. -/
theorem finite_reachable_heard (memo : List (N × List N)) (start : N) :
    (reachable (fun n => .ok (heard memo n)) start).Finite := by
  apply (List.finite_toSet (start :: memo.flatMap Prod.snd)).subset
  intro n hn
  induction hn with
  | refl => exact List.mem_cons_self ..
  | @tail a b _ hlinked _ =>
    have hmem : b ∈ (memo.lookup a).getD [] := linked_ok_iff.mp hlinked
    cases hlookup : memo.lookup a with
    | none =>
      rw [hlookup] at hmem
      cases hmem
    | some answer =>
      rw [hlookup] at hmem
      exact List.mem_cons_of_mem _ (List.mem_flatMap.mpr ⟨_, lookup_mem hlookup, hmem⟩)

/-! ## One step along fixed answers -/

/-- Entering a node comes to the same search along fixed answers that agree with what is
remembered then, and they agree with what was remembered before. -/
theorem visit_fixed (h : s.visit bounds source node = .ok t) (ht : Agrees successors t.memo) :
    s.visit bounds.quiet (fun _ n => .ok (successors n)) node = .ok t ∧
      Agrees successors s.memo := by
  by_cases hdeep : bounds.maxDepth.any (· ≤ s.path.length) = true
  · have hquiet : bounds.quiet.maxDepth.any (· ≤ s.path.length) = true := hdeep
    rw [visit_eq_of_deep hdeep] at h
    obtain rfl := Except.ok.inj h
    rw [memo_retreat] at ht
    exact ⟨visit_eq_of_deep hquiet, ht⟩
  have hquiet : ¬ bounds.quiet.maxDepth.any (· ≤ s.path.length) = true := hdeep
  cases hmemo : s.remembered? node with
  | some answer =>
    rw [visit_eq_of_remembered hdeep hmemo] at h
    obtain rfl := Except.ok.inj h
    rw [memo_expand] at ht
    exact ⟨visit_eq_of_remembered hquiet hmemo, ht⟩
  | none =>
    rcases visit_cases source node hdeep with ⟨answer, hremembered, -⟩ | ⟨answer, -, hvisit⟩ |
      ⟨failure, lookups, hvisit, -⟩
    · cases hmemo.symm.trans hremembered
    · -- the fixed answer is the one that was heard
      obtain rfl := Except.ok.inj (hvisit.symm.trans h)
      rw [memo_expand] at ht
      obtain ⟨rfl, hs⟩ := Agrees.of_cons hmemo ht
      exact ⟨visit_eq_of_new hquiet hmemo, hs⟩
    · cases hvisit.symm.trans h

theorem step_fixed (h : s.step bounds source = .ok t) (ht : Agrees successors t.memo) :
    s.step bounds.quiet (fun _ n => .ok (successors n)) = .ok t ∧ Agrees successors s.memo := by
  rcases step_cases s with ⟨-, hstep⟩ | ⟨_, outer, -, -, hstep⟩ |
    ⟨_, outer, node, after, -, -, hstep⟩
  · cases (hstep bounds source).symm.trans h
  · rw [hstep] at h ⊢
    obtain rfl := Except.ok.inj h
    rw [memo_retreat] at ht
    exact ⟨rfl, ht⟩
  · rw [hstep] at h ⊢
    exact visit_fixed h ht

/-! ## All stages -/

/-- A walk comes through its searches along fixed answers as well. -/
theorem stage_fixed (h : Stage bounds source start (.ok s)) (hs : Agrees successors s.memo) :
    Stage bounds.quiet (fun _ n => .ok (successors n)) start (.ok s) := by
  generalize hc : (.ok s : Except (Outcome N) (Search N)) = c at h
  induction h generalizing s with
  | refl =>
    rw [← hc, ← (visit_fixed hc.symm hs).1]
    exact Relation.ReflTransGen.refl
  | tail _ hstep ih =>
    obtain ⟨s', rfl, rfl⟩ := hstep
    obtain ⟨hsame, hs'⟩ := step_fixed hc.symm hs
    have hstage := (ih hs' rfl).step
    rwa [hsame, hc] at hstage

/-- Entering a node does not return chains. -/
theorem visit_ne_returned (bounds : Bounds) (source : Source N) (s : Search N) (node : N) :
    s.visit bounds source node ≠ .error ⟨.ok chains, lookups⟩ := by
  intro h
  by_cases hdeep : bounds.maxDepth.any (· ≤ s.path.length) = true
  · cases (visit_eq_of_deep hdeep).symm.trans h
  · rcases visit_cases source node hdeep with ⟨_, -, hvisit⟩ | ⟨_, -, hvisit⟩ | ⟨_, _, hvisit, -⟩
    · cases hvisit.symm.trans h
    · cases hvisit.symm.trans h
    · cases hvisit.symm.trans h

/-- A step that returns chains needs neither bounds nor source. -/
theorem step_of_returned (h : s.step bounds source = .error ⟨.ok chains, lookups⟩)
    (bounds' : Bounds) (source' : Source N) :
    s.step bounds' source' = .error ⟨.ok chains, lookups⟩ := by
  rcases step_cases s with ⟨-, hstep⟩ | ⟨_, _, -, -, hstep⟩ | ⟨_, _, node, _, -, -, hstep⟩
  · rw [hstep] at h ⊢
    exact h
  · cases (hstep bounds source).symm.trans h
  · rw [hstep] at h
    exact absurd h (visit_ne_returned bounds source _ node)

/-- What a walk returns, it returns along the answers that it heard. -/
theorem exists_ends_fixed (h : Ends bounds source start ⟨.ok chains, lookups⟩) :
    ∃ successors : N → List N, (reachable (fun n => .ok (successors n)) start).Finite ∧
      Ends bounds.quiet (fun _ n => .ok (successors n)) start ⟨.ok chains, lookups⟩ := by
  rw [ends_iff_leads] at h
  rcases Relation.ReflTransGen.cases_tail h with hvisit | ⟨_, hstage, s, rfl, hstep⟩
  · exact absurd hvisit.symm (visit_ne_returned bounds source {} start)
  · refine ⟨heard s.memo, finite_reachable_heard s.memo start, ends_iff_leads.mpr ?_⟩
    have hfixed := (stage_fixed hstage (agrees_heard s.memo)).step
    rwa [step_of_returned hstep.symm] at hfixed

end Search
end Walk
end CallImpact
