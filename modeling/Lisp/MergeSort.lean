/-!
# Merge sort with an effectful comparison

The list is split in the middle, its halves are sorted, the left one first, and
merged. The comparison runs in any monad, so it may fail, count or print. It is
always asked whether an item of the right half goes before one of the left, and
of two items that it does not tell apart the left one stays in front.
-/

namespace Lisp

variable {m : Type → Type} [Monad m] {α : Type}

/-- Merges two sorted lists; `merged` holds the items already placed, in
reverse. -/
def mergeOnto (less : α → α → m Bool) (merged : List α) : List α → List α → m (List α)
  | [], right => pure (merged.reverse ++ right)
  | left, [] => pure (merged.reverse ++ left)
  | a :: left, b :: right => do
    if ← less b a then mergeOnto less (b :: merged) (a :: left) right
    else mergeOnto less (a :: merged) left (b :: right)
termination_by left right => left.length + right.length

/-- Sorts a list by merging. -/
def mergeSort (less : α → α → m Bool) (items : List α) : m (List α) :=
  if short : items.length ≤ 1 then pure items
  else do
    let left ← mergeSort less (items.take (items.length / 2))
    let right ← mergeSort less (items.drop (items.length / 2))
    mergeOnto less [] left right
termination_by items.length
decreasing_by
  · simp only [List.length_take]; omega
  · simp only [List.length_drop]; omega

end Lisp
