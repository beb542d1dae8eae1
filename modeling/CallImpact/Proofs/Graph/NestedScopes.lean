import CallImpact.Proofs.Graph.Innermost

/-!
# The owner among nested scopes

Of the scopes around an occurrence the one with the greatest start is chosen, and of those with
the least stop.  That no other one lies inside it follows for any spans, whether they are
nested, overlap or are inverted.  That it lies inside all the others does not: it takes scopes
that are nested, as they are in a source that was parsed.
-/

namespace CallImpact
namespace FunctionGraph

/-- An innermost scope encloses no other scope around the span. -/
theorem IsInnermost.eq_of_encloses {scopes : List Span} {s scope other : Span}
    (h : IsInnermost scopes s scope) (hother : other ∈ scopes)
    (hencloses : other.encloses s = true) (hinside : scope.encloses other = true) :
    other = scope := by
  apply Span.encloses_antisymm _ hinside
  have hbeaten := h.innermost other hother hencloses
  rw [Span.encloses_iff_rank] at hinside ⊢
  simp only [Point.lt_iff_rank, Point.le_iff_rank, Point.eq_iff_rank] at hbeaten
  omega

/-- If the scopes around the span are nested, all of them enclose the innermost one. -/
theorem IsInnermost.encloses_of_nested {scopes : List Span} {s scope other : Span}
    (h : IsInnermost scopes s scope) (hother : other ∈ scopes)
    (hencloses : other.encloses s = true)
    (hnested : other.encloses scope = true ∨ scope.encloses other = true) :
    other.encloses scope = true := by
  rcases hnested with houter | hinner
  · exact houter
  · have hsame := h.eq_of_encloses hother hencloses hinner
    rwa [hsame] at hinner ⊢

/-- An occurrence has no owner exactly if no scope encloses its span.  Otherwise the scope of
the owner encloses the span, no other scope around the span lies inside it, and it lies inside
all of them if they are nested.  Of the candidates with this scope the last one is the owner. -/
theorem enclosing?_innermost (cs : List Candidate) (s : Span) :
    (enclosing? cs s = none ↔ ∀ c ∈ cs, ¬ c.scope.encloses s = true) ∧
      ∀ owner, enclosing? cs s = some owner →
        owner.scope.encloses s = true ∧
        (∀ c ∈ cs, c.scope.encloses s = true → owner.scope.encloses c.scope = true →
          c.scope = owner.scope) ∧
        ((∀ c ∈ cs, ∀ d ∈ cs, c.scope.encloses s = true → d.scope.encloses s = true →
            c.scope.encloses d.scope = true ∨ d.scope.encloses c.scope = true) →
          ∀ c ∈ cs, c.scope.encloses s = true → c.scope.encloses owner.scope = true) ∧
        (cs.filter fun c => decide (c.scope = owner.scope)).getLast? = some owner := by
  refine ⟨enclosing?_eq_none_iff, fun owner h => ?_⟩
  obtain ⟨hinner, hlast⟩ := enclosing?_eq_some_iff_getLast?.mp h
  have hscope : ∀ c ∈ cs, c.scope ∈ cs.map Candidate.scope := fun c hc =>
    List.mem_map.mpr ⟨c, hc, rfl⟩
  have hmem : owner ∈ cs := (List.mem_filter.mp (List.mem_of_getLast? hlast)).1
  refine ⟨hinner.encloses, ?_, ?_, hlast⟩
  · intro c hc hencloses hinside
    exact hinner.eq_of_encloses (hscope c hc) hencloses hinside
  · intro hnested c hc hencloses
    apply hinner.encloses_of_nested (hscope c hc) hencloses
    exact hnested c hc owner hmem hencloses hinner.encloses

/-- A candidate over whole rows. -/
def rowsCandidate (vertex : Nat) (first last : UInt32) : Candidate :=
  ⟨⟨.ofSpans "f" (.ofRows first last) (.ofRows first last), "a.go"⟩, vertex⟩

/-- The third function repeats the scope of the second one, inside that of the first. -/
def nestedCandidates : List Candidate :=
  [rowsCandidate 0 0 10, rowsCandidate 1 3 5, rowsCandidate 2 3 5, rowsCandidate 3 7 9]

theorem enclosing?_innermost_nested :
    enclosing? nestedCandidates (.ofRows 4 4) = some (rowsCandidate 2 3 5) ∧
      ∀ c ∈ nestedCandidates, c.scope.encloses (.ofRows 4 4) = true →
        c.scope.encloses (rowsCandidate 2 3 5).scope = true := by
  have howner : enclosing? nestedCandidates (.ofRows 4 4) = some (rowsCandidate 2 3 5) := by
    decide
  obtain ⟨-, -, hnested, -⟩ := (enclosing?_innermost nestedCandidates _).2 _ howner
  exact ⟨howner, hnested (by decide)⟩

end FunctionGraph
end CallImpact
