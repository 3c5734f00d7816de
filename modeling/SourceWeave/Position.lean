import SourceWeave.StableSort

/-!
Places in a text. Lines count from one and columns count UTF-16 units from
zero. Places are ordered by line, then by column.
-/

set_option autoImplicit false

namespace SourceWeave

structure Position where
  line : Nat
  column : Nat
deriving DecidableEq, Repr, Inhabited

namespace Position

instance : LT Position where
  lt left right := left.line < right.line ∨ left.line = right.line ∧ left.column < right.column

instance : LE Position where
  le left right := left.line < right.line ∨ left.line = right.line ∧ left.column ≤ right.column

instance (left right : Position) : Decidable (left < right) :=
  inferInstanceAs (Decidable (_ ∨ _))

instance (left right : Position) : Decidable (left ≤ right) :=
  inferInstanceAs (Decidable (_ ∨ _))

theorem lt_iff (left right : Position) :
    left < right ↔
      left.line < right.line ∨ left.line = right.line ∧ left.column < right.column :=
  Iff.rfl

theorem le_iff (left right : Position) :
    left ≤ right ↔
      left.line < right.line ∨ left.line = right.line ∧ left.column ≤ right.column :=
  Iff.rfl

theorem lt_trans {first second third : Position} (before : first < second)
    (after : second < third) : first < third := by
  rw [lt_iff] at *
  omega

def sort (positions : List Position) : List Position :=
  stableSort (fun left right => decide (left ≤ right)) positions

/-- Where a place of a copied text lands when the copy's first place `origin`
lands on `target`: only the first line is moved sideways. -/
def relocate (place origin target : Position) : Position :=
  if place.line = origin.line then
    ⟨target.line, target.column + (place.column - origin.column)⟩
  else
    ⟨target.line + (place.line - origin.line), place.column⟩

end Position

end SourceWeave
