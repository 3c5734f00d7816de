/-!
Sorting by insertion, the last item first. An item is put in front of the first
one that it may stand before, so that equal items stay in the order in which they
were given. Items that are nearly in order, as segments are, cost one comparison
each, and recursion on the list alone lets a sorted list be computed in a proof.
-/

set_option autoImplicit false

namespace SourceWeave

def insertInOrder {α : Type} (inOrder : α → α → Bool) (item : α) : List α → List α
  | [] => [item]
  | first :: rest =>
      if inOrder item first then item :: first :: rest
      else first :: insertInOrder inOrder item rest

def stableSort {α : Type} (inOrder : α → α → Bool) (items : List α) : List α :=
  items.foldr (insertInOrder inOrder) []

theorem mem_insertInOrder {α : Type} (inOrder : α → α → Bool) (item other : α)
    (items : List α) : other ∈ insertInOrder inOrder item items ↔ other = item ∨ other ∈ items := by
  induction items with
  | nil => simp [insertInOrder]
  | cons first rest ih =>
      unfold insertInOrder
      split
      · simp
      · simp only [List.mem_cons, ih]
        exact or_left_comm

theorem mem_stableSort {α : Type} (inOrder : α → α → Bool) (item : α) (items : List α) :
    item ∈ stableSort inOrder items ↔ item ∈ items := by
  induction items with
  | nil => exact Iff.rfl
  | cons first rest ih =>
      rw [stableSort, List.foldr_cons, mem_insertInOrder, List.mem_cons]
      exact or_congr Iff.rfl ih

end SourceWeave
