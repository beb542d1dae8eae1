/-!
# Batches

A list cut into consecutive parts of one size; the last part may be smaller, and
none is empty.

Every batch is begun with room for all its elements, and no allocation may exceed
`maxAllocation` bytes.  If a full batch would, the first one is not even begun, and
there are no batches, whatever the list.  Up to that limit memory is unbounded here.
-/

namespace CallImpact

/-- Cuts a list into batches of `size` elements; `current` is the unfinished
batch, its last element first. -/
def fillBatches {α : Type} (size : Nat) (current : List α) : List α → List (List α)
  | [] => if current.isEmpty then [] else [current.reverse]
  | x :: rest =>
    if current.length + 1 = size then (x :: current).reverse :: fillBatches size [] rest
    else fillBatches size (x :: current) rest

/-- The batches hold the unfinished batch and the list, in order. -/
theorem flatten_fillBatches {α : Type} (size : Nat) (current list : List α) :
    (fillBatches size current list).flatten = current.reverse ++ list := by
  induction list generalizing current with
  | nil =>
    cases current <;> simp [fillBatches]
  | cons x rest ih =>
    rw [fillBatches]
    split
    · simp [ih]
    · simp [ih]

/-- Cuts a list into batches of `size` elements, or of one if `size` is zero. -/
def batches {α : Type} (size : Nat) (list : List α) : List (List α) :=
  fillBatches (max size 1) [] list

/-- The greatest number of bytes that can be allocated at once. -/
def maxAllocation : Nat := 9223372036854775807

/-- A full batch of elements of so many bytes each is no larger than an allocation may be. -/
def hasRoom (elementBytes size : Nat) : Bool :=
  decide (elementBytes * max size 1 ≤ maxAllocation)

/-- The batches of a list of elements of so many bytes each, or `none` if the first batch
cannot be begun. -/
def batches? {α : Type} (elementBytes size : Nat) (list : List α) : Option (List (List α)) :=
  if hasRoom elementBytes size then some (batches size list) else none

end CallImpact
