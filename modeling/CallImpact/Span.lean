import CallImpact.Text.Decimal

/-!
# Points and spans of source text

A point is a zero-based line and column.  A span runs from its start to its
stop, both included; nothing keeps a span from being inverted, and an inverted
or one-point span carries no location.

Two views of a span are used: as a range of points (`encloses`, `overlaps`)
and as a range of lines (`containsLine`, `lines`, `lineCount`).
-/

namespace CallImpact

/-- A position: a zero-based line and a zero-based column in it. -/
structure Point where
  row : UInt32
  column : UInt32
deriving DecidableEq, Inhabited

namespace Point

/-- Points are ordered by row, then by column. -/
instance : LE Point where
  le p q := p.row < q.row ∨ p.row = q.row ∧ p.column ≤ q.column

instance : LT Point where
  lt p q := p.row < q.row ∨ p.row = q.row ∧ p.column < q.column

instance (p q : Point) : Decidable (p ≤ q) :=
  inferInstanceAs (Decidable (p.row < q.row ∨ p.row = q.row ∧ p.column ≤ q.column))

instance (p q : Point) : Decidable (p < q) :=
  inferInstanceAs (Decidable (p.row < q.row ∨ p.row = q.row ∧ p.column < q.column))

/-- The order of two points as an answer. -/
def compare (p q : Point) : Ordering :=
  if p < q then .lt else if p = q then .eq else .gt

def text (p : Point) : String :=
  Text.decimal p.row.toNat ++ ":" ++ Text.decimal p.column.toNat

end Point

/-- The range from `start` to `stop`, both included. -/
structure Span where
  start : Point
  stop : Point
deriving DecidableEq, Inhabited

namespace Span

/-- The span of the whole rows `first` to `last`. -/
def ofRows (first last : UInt32) : Span :=
  ⟨⟨first, 0⟩, ⟨last, UInt32.ofNat (UInt32.size - 1)⟩⟩

/-- The line lies between the first and the last row. -/
def containsLine (s : Span) (line : UInt32) : Bool :=
  decide (s.start.row ≤ line ∧ line ≤ s.stop.row)

def containsAnyLine (s : Span) (lines : List UInt32) : Bool :=
  lines.any s.containsLine

/-- The inner span starts and stops inside the outer one. -/
def encloses (outer inner : Span) : Bool :=
  decide (outer.start ≤ inner.start ∧ inner.stop ≤ outer.stop)

/-- Each span starts no later than the other one stops. -/
def overlaps (s t : Span) : Bool :=
  decide (s.start ≤ t.stop ∧ t.start ≤ s.stop)

/-- A span that does not stop after its start carries no location. -/
def isEmpty (s : Span) : Bool :=
  decide (s.stop ≤ s.start)

/-- How many rows lie between the first and the last, none in an inverted span. -/
def height (s : Span) : Nat :=
  s.stop.row.toNat + 1 - s.start.row.toNat

/-- The first `limit` lines of the span, in ascending order. -/
def firstLines (s : Span) (limit : Nat) : List UInt32 :=
  (List.range' s.start.row.toNat (min limit s.height)).map UInt32.ofNat

def lines (s : Span) : List UInt32 :=
  s.firstLines s.height

/-- The number of rows from the start's row to the stop's; an inverted span
counts its starting row. -/
def lineCount (s : Span) : UInt32 :=
  (if s.start.row ≤ s.stop.row then s.stop.row - s.start.row else 0) + 1

def text (s : Span) : String :=
  s.start.text ++ "," ++ s.stop.text

end Span
end CallImpact
