import CallImpact.Proofs.Span.Lines

/-!
# The points of a span

Points are ordered like their ranks, the numbers of points before them.  What spans say about each
other by their ends is what they say about their points: an enclosed span has no points outside,
and overlapping spans share a point, hence a line.  This takes spans that are not inverted, which
have no points at all; but `encloses` orders the inverted ones as well.
-/

namespace CallImpact

/-- The number of points before a point. -/
def Point.rank (p : Point) : Nat :=
  p.row.toNat * UInt32.size + p.column.toNat

namespace Point

theorem lt_iff_rank {p q : Point} : p < q ↔ p.rank < q.rank := by
  have hp := p.column.toNat_lt
  have hq := q.column.toNat_lt
  change p.row < q.row ∨ p.row = q.row ∧ p.column < q.column ↔ _
  rw [UInt32.lt_iff_toNat_lt, UInt32.lt_iff_toNat_lt, ← UInt32.toNat_inj]
  simp only [rank, UInt32.size]
  omega

theorem le_iff_rank {p q : Point} : p ≤ q ↔ p.rank ≤ q.rank := by
  have hp := p.column.toNat_lt
  have hq := q.column.toNat_lt
  change p.row < q.row ∨ p.row = q.row ∧ p.column ≤ q.column ↔ _
  rw [UInt32.lt_iff_toNat_lt, UInt32.le_iff_toNat_le, ← UInt32.toNat_inj]
  simp only [rank, UInt32.size]
  omega

theorem eq_iff_rank {p q : Point} : p = q ↔ p.rank = q.rank := by
  have hp := p.column.toNat_lt
  have hq := q.column.toNat_lt
  obtain ⟨r, c⟩ := p
  obtain ⟨r', c'⟩ := q
  rw [Point.mk.injEq, ← UInt32.toNat_inj, ← UInt32.toNat_inj]
  simp only [rank, UInt32.size] at *
  omega

theorem le_refl (p : Point) : p ≤ p :=
  le_iff_rank.mpr (Nat.le_refl _)

theorem le_trans {p q r : Point} (hpq : p ≤ q) (hqr : q ≤ r) : p ≤ r :=
  le_iff_rank.mpr (Nat.le_trans (le_iff_rank.mp hpq) (le_iff_rank.mp hqr))

theorem le_total (p q : Point) : p ≤ q ∨ q ≤ p := by
  rw [le_iff_rank, le_iff_rank]
  exact Nat.le_total _ _

theorem row_le_of_le {p q : Point} (h : p ≤ q) : p.row ≤ q.row := by
  rcases h with hlt | ⟨heq, -⟩
  · exact UInt32.le_of_lt hlt
  · exact heq ▸ UInt32.le_refl p.row

end Point

namespace Span

/-! ## The order of spans -/

theorem encloses_iff_rank {s t : Span} :
    s.encloses t = true ↔ s.start.rank ≤ t.start.rank ∧ t.stop.rank ≤ s.stop.rank := by
  rw [encloses, decide_eq_true_iff, Point.le_iff_rank, Point.le_iff_rank]

theorem encloses_refl (s : Span) : s.encloses s = true := by
  rw [encloses_iff_rank]
  exact ⟨Nat.le_refl _, Nat.le_refl _⟩

theorem encloses_trans {r s t : Span} (hrs : r.encloses s = true) (hst : s.encloses t = true) :
    r.encloses t = true := by
  rw [encloses_iff_rank] at hrs hst ⊢
  exact ⟨Nat.le_trans hrs.1 hst.1, Nat.le_trans hst.2 hrs.2⟩

/-- Spans that enclose each other are equal, inverted ones included. -/
theorem encloses_antisymm {s t : Span} (hst : s.encloses t = true) (hts : t.encloses s = true) :
    s = t := by
  rw [encloses_iff_rank] at hst hts
  have hstart : s.start = t.start := Point.eq_iff_rank.mpr (by omega)
  have hstop : s.stop = t.stop := Point.eq_iff_rank.mpr (by omega)
  exact congrArg₂ Span.mk hstart hstop

/-! ## Points in spans -/

variable {s t : Span}

/-- A span has the rows of its points among its lines. -/
theorem row_mem_lines {p : Point} (hstart : s.start ≤ p) (hstop : p ≤ s.stop) :
    p.row ∈ s.lines :=
  mem_lines_iff.mpr ⟨Point.row_le_of_le hstart, Point.row_le_of_le hstop⟩

/-- A span touches the first line of every span in it that is not inverted. -/
theorem containsLine_of_encloses {outer inner : Span} (h : outer.encloses inner = true)
    (hinner : inner.start ≤ inner.stop) : outer.containsLine inner.start.row = true := by
  obtain ⟨hstart, hstop⟩ := of_decide_eq_true h
  exact containsLine_iff.mpr (row_mem_lines hstart (Point.le_trans hinner hstop))

/-- The enclosed spans that are not inverted are those without points outside. -/
theorem encloses_iff_forall_point (ht : t.start ≤ t.stop) :
    s.encloses t = true ↔ ∀ p, t.start ≤ p → p ≤ t.stop → s.start ≤ p ∧ p ≤ s.stop := by
  rw [encloses, decide_eq_true_iff]
  constructor
  · rintro ⟨hstart, hstop⟩ p hp hp'
    exact ⟨Point.le_trans hstart hp, Point.le_trans hp' hstop⟩
  · intro hpoints
    exact ⟨(hpoints t.start t.start.le_refl ht).1, (hpoints t.stop ht t.stop.le_refl).2⟩

/-- Spans that are not inverted overlap exactly if they share a point: the later one of their
starts, if any. -/
theorem overlaps_iff_exists_point (hs : s.start ≤ s.stop) (ht : t.start ≤ t.stop) :
    s.overlaps t = true ↔
      ∃ p, (s.start ≤ p ∧ p ≤ s.stop) ∧ t.start ≤ p ∧ p ≤ t.stop := by
  rw [overlaps, decide_eq_true_iff]
  constructor
  · rintro ⟨hst, hts⟩
    rcases s.start.le_total t.start with hle | hle
    · exact ⟨t.start, ⟨hle, hts⟩, t.start.le_refl, ht⟩
    · exact ⟨s.start, ⟨s.start.le_refl, hs⟩, hle, hst⟩
  · rintro ⟨p, ⟨hsp, hps⟩, htp, hpt⟩
    exact ⟨Point.le_trans hsp hpt, Point.le_trans htp hps⟩

/-- Between spans that are not inverted, enclosing and overlapping are inclusion and intersection
of their points, and overlapping spans share a line.  Over all spans, enclosing is a partial
order. -/
theorem relations_of_points :
    (∀ s t : Span, s.start ≤ s.stop → t.start ≤ t.stop →
      (s.encloses t = true ↔ ∀ p, t.start ≤ p → p ≤ t.stop → s.start ≤ p ∧ p ≤ s.stop) ∧
      (s.overlaps t = true ↔
        ∃ p, (s.start ≤ p ∧ p ≤ s.stop) ∧ t.start ≤ p ∧ p ≤ t.stop) ∧
      (s.overlaps t = true → ∃ line, line ∈ s.lines ∧ line ∈ t.lines)) ∧
    (∀ s : Span, s.encloses s = true) ∧
    (∀ s t : Span, s.encloses t = true → t.encloses s = true → s = t) ∧
    (∀ r s t : Span, r.encloses s = true → s.encloses t = true → r.encloses t = true) := by
  refine ⟨fun s t hs ht => ?_, encloses_refl, fun _ _ => encloses_antisymm,
    fun _ _ _ => encloses_trans⟩
  refine ⟨encloses_iff_forall_point ht, overlaps_iff_exists_point hs ht, fun hoverlaps => ?_⟩
  obtain ⟨p, ⟨hsp, hps⟩, htp, hpt⟩ := (overlaps_iff_exists_point hs ht).mp hoverlaps
  exact ⟨p.row, row_mem_lines hsp hps, row_mem_lines htp hpt⟩

/-- Two spans of which the second one starts at the point where the first one stops. -/
def touchingSpans : Span × Span :=
  (⟨⟨1, 0⟩, ⟨3, 5⟩⟩, ⟨⟨3, 5⟩, ⟨4, 0⟩⟩)

theorem relations_of_points_touching :
    touchingSpans.1.start ≤ touchingSpans.1.stop ∧ touchingSpans.2.start ≤ touchingSpans.2.stop ∧
      (∃ p, (touchingSpans.1.start ≤ p ∧ p ≤ touchingSpans.1.stop) ∧
        touchingSpans.2.start ≤ p ∧ p ≤ touchingSpans.2.stop) ∧
      ∃ line, line ∈ touchingSpans.1.lines ∧ line ∈ touchingSpans.2.lines := by
  have hfirst : touchingSpans.1.start ≤ touchingSpans.1.stop := by decide
  have hsecond : touchingSpans.2.start ≤ touchingSpans.2.stop := by decide
  have hoverlaps : touchingSpans.1.overlaps touchingSpans.2 = true := by decide
  obtain ⟨-, hpoint, hline⟩ := relations_of_points.1 _ _ hfirst hsecond
  exact ⟨hfirst, hsecond, hpoint.mp hoverlaps, hline hoverlaps⟩

end Span
end CallImpact
