import CallImpact.Graph.Build
import CallImpact.Proofs.Span.Points
import CallImpact.Proofs.Support.Lists
import Mathlib.Data.List.Induction

/-!
# The owner of an occurrence

Which candidate owns an occurrence is computed by one pass that keeps the best
candidate so far.  Here it is described without the pass: by the position of its
scope among the scopes of all candidates.
-/

namespace CallImpact
namespace FunctionGraph

/-- The scope at a position is the innermost one around the span: of all scopes that
enclose it, it starts last, among those it stops first, and among those it is the
last one. -/
structure InnermostAt (scopes : List Span) (s : Span) (i : Nat) (scope : Span) : Prop where
  at_position : scopes[i]? = some scope
  encloses : scope.encloses s = true
  innermost : ∀ j other, scopes[j]? = some other → other.encloses s = true →
    other.start < scope.start ∨
      other.start = scope.start ∧
        (scope.stop < other.stop ∨ scope.stop = other.stop ∧ j ≤ i)

/-- There is at most one innermost scope. -/
theorem InnermostAt.position_unique {scopes : List Span} {s scope scope' : Span} {i i' : Nat}
    (h : InnermostAt scopes s i scope) (h' : InnermostAt scopes s i' scope') :
    i = i' := by
  have hle := h.innermost i' scope' h'.at_position h'.encloses
  have hge := h'.innermost i scope h.at_position h.encloses
  simp only [Point.lt_iff_rank, Point.eq_iff_rank] at hle hge
  omega

/-- An innermost scope stays innermost if a scope is added that does not win. -/
theorem InnermostAt.concat {scopes : List Span} {s scope last : Span} {i : Nat}
    (h : InnermostAt scopes s i scope)
    (hloses : last.encloses s = true →
      last.start < scope.start ∨ last.start = scope.start ∧ scope.stop < last.stop) :
    InnermostAt (scopes ++ [last]) s i scope := by
  have hlt := (List.getElem?_eq_some_iff.mp h.at_position).1
  refine ⟨?_, h.encloses, ?_⟩
  · rw [List.getElem?_append_left hlt]
    exact h.at_position
  · intro j other hj hother
    rcases getElem?_concat_cases hj with hj | ⟨-, rfl⟩
    · exact h.innermost j other hj hother
    · rcases hloses hother with hstart | ⟨hstart, hstop⟩
      · exact Or.inl hstart
      · exact Or.inr ⟨hstart, Or.inl hstop⟩

/-- An added scope that wins against all others is the innermost one. -/
theorem innermostAt_concat {scopes : List Span} {s last : Span}
    (henc : last.encloses s = true)
    (hwins : ∀ other ∈ scopes, other.encloses s = true →
      other.start < last.start ∨ other.start = last.start ∧ last.stop ≤ other.stop) :
    InnermostAt (scopes ++ [last]) s scopes.length last := by
  refine ⟨List.getElem?_concat_length, henc, ?_⟩
  intro j other hj hother
  rcases getElem?_concat_cases hj with hj | ⟨rfl, rfl⟩
  · have hwin := hwins other (List.mem_of_getElem? hj) hother
    have hjlt := (List.getElem?_eq_some_iff.mp hj).1
    simp only [Point.lt_iff_rank, Point.le_iff_rank, Point.eq_iff_rank] at hwin ⊢
    omega
  · exact Or.inr ⟨rfl, Or.inr ⟨rfl, Nat.le_refl _⟩⟩

/-! ## The pass over the candidates -/

theorem innermost?_eq_none_iff {cs : List Candidate} : innermost? cs = none ↔ cs = [] := by
  cases cs with
  | nil => simp [innermost?]
  | cons c rest => simp [innermost?]

theorem enclosing?_eq_none_iff {cs : List Candidate} {s : Span} :
    enclosing? cs s = none ↔ ∀ c ∈ cs, ¬ c.scope.encloses s = true := by
  rw [enclosing?, innermost?_eq_none_iff, List.filter_eq_nil_iff]

/-- One more candidate at the end is compared with the best one so far. -/
theorem innermost?_concat (cs : List Candidate) (c : Candidate) :
    innermost? (cs ++ [c]) = some
      (match innermost? cs with
        | none => c
        | some best => if c.winsAgainst best then c else best) := by
  cases cs with
  | nil => rfl
  | cons first rest =>
    simp only [innermost?, List.cons_append, List.foldl_append, List.foldl_cons,
      List.foldl_nil]

theorem enclosing?_concat_of_pos {cs : List Candidate} {s : Span} {c : Candidate}
    (h : c.scope.encloses s = true) :
    enclosing? (cs ++ [c]) s = some
      (match enclosing? cs s with
        | none => c
        | some best => if c.winsAgainst best then c else best) := by
  have hone : [c].filter (fun c => c.scope.encloses s) = [c] := by simp [h]
  rw [enclosing?, List.filter_append, hone, innermost?_concat, enclosing?]

theorem enclosing?_concat_of_neg {cs : List Candidate} {s : Span} {c : Candidate}
    (h : ¬ c.scope.encloses s = true) :
    enclosing? (cs ++ [c]) s = enclosing? cs s := by
  have hnone : [c].filter (fun c => c.scope.encloses s) = [] := by simp [h]
  rw [enclosing?, List.filter_append, hnone, List.append_nil, enclosing?]

/-- What the pass keeps after it saw a list of candidates is innermost among them. -/
theorem innermostAt_of_enclosing? {cs : List Candidate} {s : Span} {c : Candidate}
    (h : enclosing? cs s = some c) :
    ∃ i, cs[i]? = some c ∧ InnermostAt (cs.map Candidate.scope) s i c.scope := by
  induction cs using List.reverseRecOn generalizing c with
  | nil => cases h
  | append_singleton cs last ih =>
    have hold : ∀ {i : Nat} {b : Candidate}, cs[i]? = some b →
        (cs ++ [last])[i]? = some b := by
      intro i b hi
      rwa [List.getElem?_append_left (List.getElem?_eq_some_iff.mp hi).1]
    have hlast : (cs ++ [last])[(cs.map Candidate.scope).length]? = some last := by
      rw [List.length_map]
      exact List.getElem?_concat_length
    rw [List.map_append, List.map_cons, List.map_nil]
    by_cases henc : last.scope.encloses s = true
    · rw [enclosing?_concat_of_pos henc, Option.some.injEq] at h
      cases hbest : enclosing? cs s with
      | none =>
        have hnone := enclosing?_eq_none_iff.mp hbest
        rw [hbest] at h
        subst h
        refine ⟨_, hlast, innermostAt_concat henc ?_⟩
        intro other hother hencloses
        obtain ⟨b, hb, rfl⟩ := List.mem_map.mp hother
        exact absurd hencloses (hnone b hb)
      | some best =>
        obtain ⟨i, hi, hinner⟩ := ih hbest
        simp only [hbest] at h
        by_cases hwins : last.winsAgainst best = true
        · rw [if_pos hwins] at h
          subst h
          have hwin := of_decide_eq_true hwins
          refine ⟨_, hlast, innermostAt_concat henc ?_⟩
          intro other hother hencloses
          obtain ⟨j, hj⟩ := List.mem_iff_getElem?.mp hother
          have hbeaten := hinner.innermost j other hj hencloses
          simp only [Point.lt_iff_rank, Point.le_iff_rank, Point.eq_iff_rank] at hwin hbeaten ⊢
          omega
        · rw [if_neg hwins] at h
          subst h
          have hloses : ¬ (best.scope.start < last.scope.start ∨
              best.scope.start = last.scope.start ∧ last.scope.stop ≤ best.scope.stop) :=
            fun hwin => hwins (decide_eq_true hwin)
          refine ⟨i, hold hi, hinner.concat fun _ => ?_⟩
          simp only [Point.lt_iff_rank, Point.le_iff_rank, Point.eq_iff_rank] at hloses ⊢
          omega
    · rw [enclosing?_concat_of_neg henc] at h
      obtain ⟨i, hi, hinner⟩ := ih h
      exact ⟨i, hold hi, hinner.concat fun hencloses => absurd hencloses henc⟩

/-- A candidate is the enclosing one exactly if its scope is the innermost one. -/
theorem enclosing?_eq_some_iff {cs : List Candidate} {s : Span} {c : Candidate} :
    enclosing? cs s = some c ↔
      ∃ i, cs[i]? = some c ∧ InnermostAt (cs.map Candidate.scope) s i c.scope := by
  constructor
  · exact innermostAt_of_enclosing?
  · rintro ⟨i, hi, hinner⟩
    cases hfound : enclosing? cs s with
    | none =>
      have hnone := enclosing?_eq_none_iff.mp hfound
      exact absurd hinner.encloses (hnone c (List.mem_of_getElem? hi))
    | some other =>
      obtain ⟨j, hj, hinner'⟩ := innermostAt_of_enclosing? hfound
      rw [hinner.position_unique hinner', hj] at hi
      exact hi

/-! ## The last of the innermost scopes -/

/-- No scope around the span starts later, and none that starts at the same point stops
earlier. -/
structure IsInnermost (scopes : List Span) (s scope : Span) : Prop where
  mem : scope ∈ scopes
  encloses : scope.encloses s = true
  innermost : ∀ other ∈ scopes, other.encloses s = true →
    other.start < scope.start ∨ other.start = scope.start ∧ scope.stop ≤ other.stop

/-- Whether a scope is innermost depends only on which scopes there are. -/
theorem isInnermost_congr {scopes scopes' : List Span} {s scope : Span}
    (h : ∀ scope, scope ∈ scopes ↔ scope ∈ scopes') :
    IsInnermost scopes s scope ↔ IsInnermost scopes' s scope := by
  constructor
  · rintro ⟨hmem, hencloses, hinner⟩
    exact ⟨(h scope).mp hmem, hencloses, fun other hother => hinner other ((h other).mpr hother)⟩
  · rintro ⟨hmem, hencloses, hinner⟩
    exact ⟨(h scope).mpr hmem, hencloses, fun other hother => hinner other ((h other).mp hother)⟩

/-- The innermost scope that wins is the last one among those that are equal to it. -/
theorem innermostAt_iff {scopes : List Span} {s scope : Span} {i : Nat} :
    InnermostAt scopes s i scope ↔
      scopes[i]? = some scope ∧ IsInnermost scopes s scope ∧
        ∀ j : Nat, scopes[j]? = some scope → j ≤ i := by
  constructor
  · intro h
    refine ⟨h.at_position, ⟨List.mem_of_getElem? h.at_position, h.encloses, ?_⟩, ?_⟩
    · intro other hother hencloses
      obtain ⟨j, hj⟩ := List.mem_iff_getElem?.mp hother
      have hbeaten := h.innermost j other hj hencloses
      simp only [Point.lt_iff_rank, Point.le_iff_rank, Point.eq_iff_rank] at hbeaten ⊢
      omega
    · intro j hj
      have hbeaten := h.innermost j scope hj h.encloses
      simp only [Point.lt_iff_rank] at hbeaten
      omega
  · rintro ⟨hi, hinner, hlast⟩
    refine ⟨hi, hinner.encloses, fun j other hj hencloses => ?_⟩
    rcases hinner.innermost other (List.mem_of_getElem? hj) hencloses with hstart | ⟨hstart, hstop⟩
    · exact Or.inl hstart
    · refine Or.inr ⟨hstart, ?_⟩
      by_cases heq : scope.stop = other.stop
      · have hsame : other = scope := congrArg₂ Span.mk hstart heq.symm
        exact Or.inr ⟨heq, hlast j (hsame ▸ hj)⟩
      · simp only [Point.lt_iff_rank, Point.le_iff_rank, Point.eq_iff_rank] at hstop heq ⊢
        omega

/-- Of everything that has an innermost scope the last one is at the place that wins. -/
theorem exists_innermostAt_iff {α : Type} {scope : α → Span} {as : List α} {a : α} {s : Span} :
    (∃ i, as[i]? = some a ∧ InnermostAt (as.map scope) s i (scope a)) ↔
      IsInnermost (as.map scope) s (scope a) ∧
        (as.filter fun b => decide (scope b = scope a)).getLast? = some a := by
  have hplace : ∀ j : Nat, (as.map scope)[j]? = some (scope a) ↔
      ∃ b, as[j]? = some b ∧ scope b = scope a := by
    intro j
    rw [List.getElem?_map, Option.map_eq_some_iff]
  simp only [getLast?_filter_eq_some_iff, innermostAt_iff, hplace, decide_eq_true_iff]
  constructor
  · rintro ⟨i, hi, -, hinner, hlast⟩
    exact ⟨hinner, i, hi, trivial, fun j b hj hb => hlast j ⟨b, hj, hb⟩⟩
  · rintro ⟨hinner, i, hi, -, hlast⟩
    refine ⟨i, hi, ⟨a, hi, rfl⟩, hinner, ?_⟩
    rintro j ⟨b, hj, hb⟩
    exact hlast j b hj hb

theorem enclosing?_eq_some_iff_getLast? {cs : List Candidate} {s : Span} {c : Candidate} :
    enclosing? cs s = some c ↔
      IsInnermost (cs.map Candidate.scope) s c.scope ∧
        (cs.filter fun b => decide (b.scope = c.scope)).getLast? = some c :=
  enclosing?_eq_some_iff.trans exists_innermostAt_iff

end FunctionGraph
end CallImpact
