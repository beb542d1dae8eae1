import CallImpact.Span
import Mathlib.Data.List.Basic

/-!
# The lines of a span

A span is asked in three ways for its lines: whether it contains a line, which lines it has, and
how many.  The first two agree for all spans, since as numbers the lines are the range from the
first row to the last (`map_toNat_lines`).  The count is never less than one, so it is the number
of lines unless the span stops in a row before the one it starts in (`toNat_lineCount`).
-/

namespace CallImpact
namespace Span

/-- The span has all the rows there are. -/
def CoversAllRows (s : Span) : Prop :=
  s.start.row = 0 ∧ s.stop.row = UInt32.ofNat (UInt32.size - 1)

instance (s : Span) : Decidable s.CoversAllRows :=
  inferInstanceAs (Decidable (_ ∧ _))

/-- As numbers, the lines are the range from the first row to the last. -/
theorem map_toNat_lines (s : Span) :
    s.lines.map UInt32.toNat = List.range' s.start.row.toNat s.height := by
  have hstop := s.stop.row.toNat_lt_size
  rw [lines, firstLines, Nat.min_self, List.map_map]
  refine (List.map_congr_left fun n hn => ?_).trans (List.map_id _)
  rw [List.mem_range'_1, height] at hn
  exact UInt32.toNat_ofNat_of_lt' (by omega)

theorem length_lines (s : Span) : s.lines.length = s.height := by
  rw [← List.length_map (f := UInt32.toNat), map_toNat_lines, List.length_range']

theorem mem_lines_iff {s : Span} {line : UInt32} :
    line ∈ s.lines ↔ s.start.row ≤ line ∧ line ≤ s.stop.row := by
  have hmem : line ∈ s.lines ↔ line.toNat ∈ s.lines.map UInt32.toNat :=
    (List.mem_map_of_injective fun _ _ => UInt32.toNat_inj.mp).symm
  rw [hmem, map_toNat_lines, List.mem_range'_1, height, UInt32.le_iff_toNat_le,
    UInt32.le_iff_toNat_le]
  omega

theorem containsLine_iff {s : Span} {line : UInt32} :
    s.containsLine line = true ↔ line ∈ s.lines := by
  rw [containsLine, decide_eq_true_iff, mem_lines_iff]

theorem pairwise_lines (s : Span) : s.lines.Pairwise (· < ·) := by
  have hrange : (s.lines.map UInt32.toNat).Pairwise (· < ·) := by
    rw [map_toNat_lines]
    exact List.pairwise_lt_range'
  exact (List.pairwise_map.mp hrange).imp UInt32.lt_iff_toNat_lt.mpr

theorem containsAnyLine_iff {s : Span} {lines : List UInt32} :
    s.containsAnyLine lines = true ↔ ∃ line ∈ lines, line ∈ s.lines := by
  simp only [containsAnyLine, List.any_eq_true, containsLine_iff]

/-- The count is the height, and one for a span that stops in a row before its first one. -/
theorem toNat_lineCount {s : Span} (h : ¬ s.CoversAllRows) :
    s.lineCount.toNat = max s.height 1 := by
  have hstart := s.start.row.toNat_lt_size
  have hstop := s.stop.row.toNat_lt_size
  rw [CoversAllRows, ← UInt32.toNat_inj, ← UInt32.toNat_inj, UInt32.toNat_ofNat',
    UInt32.toNat_zero] at h
  simp only [UInt32.size] at h hstart hstop
  rw [lineCount, height]
  by_cases hle : s.start.row ≤ s.stop.row
  · have hrows := UInt32.le_iff_toNat_le.mp hle
    rw [if_pos hle, UInt32.toNat_add, UInt32.toNat_sub_of_le _ _ hle, UInt32.toNat_one]
    omega
  · have hrows := UInt32.le_iff_toNat_le.not.mp hle
    rw [if_neg hle, UInt32.toNat_add, UInt32.toNat_zero, UInt32.toNat_one]
    omega

/-- A line is contained in a span exactly if it is one of its lines, which ascend strictly, and
some line of a list is contained exactly if the list shares a line with the span.  Of a span that
does not have all rows, the count is the number of lines exactly if the span does not stop in a
row before its first one.  Otherwise it has no lines and counts one. -/
theorem line_views (s : Span) (hrows : ¬ s.CoversAllRows) :
    (∀ line, s.containsLine line = true ↔ line ∈ s.lines) ∧
      s.lines.Pairwise (· < ·) ∧
      (∀ lines, s.containsAnyLine lines = true ↔ ∃ line ∈ lines, line ∈ s.lines) ∧
      (s.lineCount.toNat = s.lines.length ↔ s.start.row ≤ s.stop.row) ∧
      (s.stop.row < s.start.row → s.lines = [] ∧ s.lineCount = 1) := by
  have hcount := toNat_lineCount hrows
  refine ⟨fun _ => containsLine_iff, s.pairwise_lines, fun _ => containsAnyLine_iff, ?_, ?_⟩
  · rw [hcount, length_lines, height, UInt32.le_iff_toNat_le]
    omega
  · intro hinverted
    have hheight : s.height = 0 := by
      rw [UInt32.lt_iff_toNat_lt] at hinverted
      rw [height]
      omega
    constructor
    · rw [← List.length_eq_zero_iff, length_lines, hheight]
    · rw [← UInt32.toNat_inj, hcount, hheight, UInt32.toNat_one]
      rfl

/-- All rows but the first one. -/
def laterRows : Span :=
  ofRows 1 (UInt32.ofNat (UInt32.size - 1))

theorem line_views_laterRows :
    ¬ laterRows.CoversAllRows ∧ laterRows.lineCount.toNat = laterRows.lines.length := by
  have hrows : ¬ laterRows.CoversAllRows := by decide
  obtain ⟨-, -, -, hcount, -⟩ := line_views laterRows hrows
  exact ⟨hrows, hcount.mpr (by decide)⟩

/-- From row 5 back to row 3. -/
def backwardRows : Span :=
  ofRows 5 3

theorem lineCount_ne_length_lines_backwardRows :
    ¬ backwardRows.CoversAllRows ∧
      backwardRows.lineCount.toNat ≠ backwardRows.lines.length := by
  decide

end Span
end CallImpact
