/-!
# Ascending lists

The distinct elements of a list in ascending order, by insertion.
-/

namespace CallImpact

variable {α : Type} [LT α] [DecidableLT α] [DecidableEq α]

/-- Puts an element into its place among ascending ones, unless it is there. -/
def insertAscending (a : α) : List α → List α
  | [] => [a]
  | b :: rest =>
    if a < b then a :: b :: rest
    else if a = b then b :: rest
    else b :: insertAscending a rest

/-- The distinct elements of a list in ascending order. -/
def ascending (as : List α) : List α :=
  as.foldr insertAscending []

theorem mem_insertAscending {a b : α} {as : List α} :
    b ∈ insertAscending a as ↔ b = a ∨ b ∈ as := by
  induction as with
  | nil => simp [insertAscending]
  | cons c rest ih =>
    rw [insertAscending]
    split
    · simp
    split
    · rename_i h
      simp [h]
    · rw [List.mem_cons, ih, List.mem_cons]
      exact or_left_comm

theorem mem_ascending {a : α} {as : List α} : a ∈ ascending as ↔ a ∈ as := by
  induction as with
  | nil => simp [ascending]
  | cons b rest ih =>
    rw [ascending, List.foldr_cons, mem_insertAscending, List.mem_cons]
    exact or_congr_right ih

end CallImpact
