import SourceWeave.Position
import SourceWeave.Text.Utf16

/-!
Places reached by reading characters, and what moving a copy does to them. A
place behind some characters is the first place plus what the characters take;
moving a copy moves every place behind its first by the same.
-/

set_option autoImplicit false

namespace SourceWeave

namespace Position

def first : Position := ⟨1, 0⟩

def next (place : Position) (character : Char) : Position :=
  if character = '\n' then ⟨place.line + 1, 0⟩
  else ⟨place.line, place.column + Utf16.width character⟩

def behind (place : Position) (characters : List Char) : Position :=
  characters.foldl next place

theorem ext {left right : Position} (sameLine : left.line = right.line)
    (sameColumn : left.column = right.column) : left = right := by
  cases left
  cases right
  cases sameLine
  cases sameColumn
  rfl

theorem lt_irrefl (place : Position) : ¬ place < place := by
  rw [lt_iff]
  omega

theorem le_refl (place : Position) : place ≤ place := by
  rw [le_iff]
  omega

theorem le_of_lt {left right : Position} (before : left < right) : left ≤ right := by
  rw [lt_iff] at before
  rw [le_iff]
  omega

theorem le_trans {left middle right : Position} (before : left ≤ middle)
    (after : middle ≤ right) : left ≤ right := by
  rw [le_iff] at *
  omega

theorem lt_of_lt_of_le {left middle right : Position} (before : left < middle)
    (after : middle ≤ right) : left < right := by
  rw [lt_iff, le_iff] at *
  omega

theorem lt_of_le_of_lt {left middle right : Position} (before : left ≤ middle)
    (after : middle < right) : left < right := by
  rw [lt_iff, le_iff] at *
  omega

theorem not_lt {left right : Position} : ¬ left < right ↔ right ≤ left := by
  rw [lt_iff, le_iff]
  omega

theorem not_le {left right : Position} : ¬ left ≤ right ↔ right < left := by
  rw [lt_iff, le_iff]
  omega

theorem le_antisymm {left right : Position} (before : left ≤ right) (after : right ≤ left) :
    left = right := by
  rw [le_iff] at *
  apply ext <;> omega

theorem lt_of_le_of_ne {left right : Position} (before : left ≤ right) (different : left ≠ right) :
    left < right := by
  apply Classical.byContradiction
  intro notBefore
  exact different (le_antisymm before (not_lt.mp notBefore))

@[simp]
theorem first_line : first.line = 1 :=
  rfl

@[simp]
theorem first_column : first.column = 0 :=
  rfl

theorem first_le {place : Position} (numbered : place.line ≠ 0) : first ≤ place := by
  rw [le_iff, first_line, first_column]
  omega

/-! ### Reading on -/

@[simp]
theorem behind_nil (place : Position) : place.behind [] = place :=
  rfl

@[simp]
theorem behind_cons (place : Position) (character : Char) (rest : List Char) :
    place.behind (character :: rest) = (place.next character).behind rest :=
  rfl

theorem behind_append (place : Position) (front back : List Char) :
    place.behind (front ++ back) = (place.behind front).behind back :=
  List.foldl_append

theorem lt_next (place : Position) (character : Char) : place < place.next character := by
  have wide : 0 < Utf16.width character := by
    unfold Utf16.width
    split <;> omega
  rw [lt_iff]
  unfold next
  by_cases newline : character = '\n'
  · rw [if_pos newline]
    exact Or.inl (Nat.lt_succ_self _)
  · rw [if_neg newline]
    exact Or.inr ⟨rfl, Nat.lt_add_of_pos_right wide⟩

theorem le_behind (place : Position) (characters : List Char) :
    place ≤ place.behind characters := by
  induction characters generalizing place with
  | nil => exact le_refl place
  | cons character rest ih => exact le_trans (le_of_lt (lt_next place character)) (ih _)

theorem lt_behind (place : Position) {characters : List Char} (some : characters ≠ []) :
    place < place.behind characters := by
  cases characters with
  | nil => exact absurd rfl some
  | cons character rest => exact lt_of_lt_of_le (lt_next place character) (le_behind _ rest)

theorem behind_line_ne_zero (characters : List Char) : (first.behind characters).line ≠ 0 := by
  have atLeast := le_behind first characters
  rw [le_iff, first_line] at atLeast
  omega

/-! ### Moving -/

theorem relocate_line (place origin target : Position) :
    (place.relocate origin target).line =
      if place.line = origin.line then target.line
      else target.line + (place.line - origin.line) := by
  unfold relocate
  split <;> rfl

theorem relocate_line_eq_add (place origin target : Position) :
    (place.relocate origin target).line = target.line + (place.line - origin.line) := by
  rw [relocate_line]
  split <;> omega

theorem relocate_column (place origin target : Position) :
    (place.relocate origin target).column =
      if place.line = origin.line then target.column + (place.column - origin.column)
      else place.column := by
  unfold relocate
  split <;> rfl

@[simp]
theorem relocate_self (origin target : Position) : origin.relocate origin target = target := by
  simp [relocate]

theorem relocate_back {place origin : Position} (fromOrigin : origin ≤ place)
    (target : Position) : (place.relocate origin target).relocate target origin = place := by
  rw [le_iff] at fromOrigin
  apply ext
  · simp only [relocate_line]
    split <;> split <;> omega
  · simp only [relocate_line, relocate_column]
    split <;> split <;> omega

theorem relocate_relocate {place origin middle : Position} (fromOrigin : origin ≤ place)
    (target : Position) :
    (place.relocate origin middle).relocate middle target = place.relocate origin target := by
  rw [le_iff] at fromOrigin
  apply ext
  · simp only [relocate_line]
    split <;> split <;> omega
  · simp only [relocate_line, relocate_column]
    split <;> split <;> omega

theorem relocate_through {place middle origin : Position} (fromMiddle : middle ≤ place)
    (fromOrigin : origin ≤ middle) (target : Position) :
    place.relocate origin target = place.relocate middle (middle.relocate origin target) := by
  rw [le_iff] at fromMiddle fromOrigin
  apply ext
  · simp only [relocate_line]
    repeat' split
    all_goals omega
  · simp only [relocate_column]
    repeat' split
    all_goals omega

theorem target_le_relocate (place origin target : Position) (fromOrigin : origin ≤ place) :
    target ≤ place.relocate origin target := by
  rw [le_iff] at *
  rw [relocate_line, relocate_column]
  split <;> omega

theorem relocate_lt_relocate {left right origin : Position} (fromOrigin : origin ≤ left)
    (before : left < right) (target : Position) :
    left.relocate origin target < right.relocate origin target := by
  rw [lt_iff, le_iff] at *
  simp only [relocate_line, relocate_column]
  split <;> split <;> omega

theorem relocate_le_relocate {left right origin : Position} (fromOrigin : origin ≤ left)
    (before : left ≤ right) (target : Position) :
    left.relocate origin target ≤ right.relocate origin target := by
  rw [le_iff] at *
  simp only [relocate_line, relocate_column]
  split <;> split <;> omega

theorem relocate_lt_relocate_iff {left right origin : Position} (leftFrom : origin ≤ left)
    (rightFrom : origin ≤ right) (target : Position) :
    left.relocate origin target < right.relocate origin target ↔ left < right := by
  constructor
  · intro moved
    apply Classical.byContradiction
    intro notBefore
    exact lt_irrefl _
      (lt_of_lt_of_le moved (relocate_le_relocate rightFrom (not_lt.mp notBefore) target))
  · exact fun before => relocate_lt_relocate leftFrom before target

/-- What lies before the end of a range is moved to at most where the end is moved,
even if both ends of the range are told one column late. -/
theorem relocate_le_relocate_of_late {place start stop origin last : Position}
    (startLine : start.line = origin.line) (startLate : origin.column ≤ start.column)
    (stopLine : stop.line = last.line) (stopLate : stop.column ≤ last.column + 1)
    (fromStart : start ≤ place) (before : place < stop) (inOrder : origin ≤ last)
    (target : Position) : place.relocate start target ≤ last.relocate origin target := by
  rw [lt_iff] at before
  rw [le_iff] at *
  simp only [relocate_line, relocate_column]
  repeat' split
  all_goals omega

theorem relocate_next (place origin target : Position) (character : Char)
    (fromOrigin : origin ≤ place) :
    (place.next character).relocate origin target =
      (place.relocate origin target).next character := by
  rw [le_iff] at fromOrigin
  unfold next
  split
  · apply ext
    · simp only [relocate_line]
      split <;> split <;> omega
    · simp only [relocate_column]
      split <;> omega
  · apply ext
    · simp only [relocate_line]
    · simp only [relocate_column]
      split <;> omega

/-- A copy that starts at `origin` and lands on `target` takes every place in it to
the place behind the same characters. -/
theorem relocate_behind (place origin target : Position) (characters : List Char)
    (fromOrigin : origin ≤ place) :
    (place.behind characters).relocate origin target =
      (place.relocate origin target).behind characters := by
  induction characters generalizing place with
  | nil => rfl
  | cons character rest ih =>
      rw [behind_cons, behind_cons,
        ih (place.next character) (le_trans fromOrigin (le_of_lt (lt_next place character))),
        relocate_next place origin target character fromOrigin]

end Position

end SourceWeave
