import SourceWeave.Proofs.Units

/-!
Cutting lists whose items stand for characters each, by the offsets of the characters. A
cut goes through an append: what lies in front of a boundary and what lies behind it
are cut by themselves.
-/

set_option autoImplicit false

namespace SourceWeave.Utf16

variable {α β : Type} (character : α → Char)

def extent (items : List α) : Nat :=
  length (items.map character)

/-- The items at offsets from `start` to before `stop`, the first of all standing at
`offset`. -/
def cutFrom (offset start stop : Nat) : List α → List α
  | [] => []
  | first :: rest =>
      if start ≤ offset ∧ offset < stop then
        first :: cutFrom (offset + width (character first)) start stop rest
      else cutFrom (offset + width (character first)) start stop rest

def cut (start stop : Nat) (items : List α) : List α :=
  cutFrom character 0 start stop items

@[simp]
theorem extent_cons (first : α) (rest : List α) :
    extent character (first :: rest) = width (character first) + extent character rest :=
  rfl

@[simp]
theorem extent_append (front back : List α) :
    extent character (front ++ back) = extent character front + extent character back := by
  rw [extent, List.map_append, length_append]
  rfl

variable {character}

theorem cutFrom_append (offset start stop : Nat) (front back : List α) :
    cutFrom character offset start stop (front ++ back) =
      cutFrom character offset start stop front ++
        cutFrom character (offset + extent character front) start stop back := by
  induction front generalizing offset with
  | nil => rfl
  | cons first rest ih =>
      rw [List.cons_append, cutFrom, cutFrom, ih, extent_cons, Nat.add_assoc]
      split <;> rfl

theorem cutFrom_of_le {offset start stop : Nat} {items : List α}
    (before : offset + extent character items ≤ start) :
    cutFrom character offset start stop items = [] := by
  induction items generalizing offset with
  | nil => rfl
  | cons first rest ih =>
      have wide := width_pos (character first)
      rw [extent_cons] at before
      rw [cutFrom, if_neg (by omega), ih (by omega)]

theorem cutFrom_of_stop_le {offset start stop : Nat} {items : List α} (behind : stop ≤ offset) :
    cutFrom character offset start stop items = [] := by
  induction items generalizing offset with
  | nil => rfl
  | cons first rest ih => rw [cutFrom, if_neg (by omega), ih (by omega)]

theorem cutFrom_of_lt {start stop : Nat} (backwards : stop < start) (offset : Nat)
    (items : List α) : cutFrom character offset start stop items = [] := by
  induction items generalizing offset with
  | nil => rfl
  | cons first rest ih => rw [cutFrom, if_neg (by omega), ih]

theorem cutFrom_congr {offset other start stop left right : Nat} {items : List α}
    (same : ∀ units < extent character items,
      (start ≤ offset + units ∧ offset + units < stop ↔
        left ≤ other + units ∧ other + units < right)) :
    cutFrom character offset start stop items = cutFrom character other left right items := by
  induction items generalizing offset other with
  | nil => rfl
  | cons first rest ih =>
      have wide := width_pos (character first)
      rw [extent_cons] at same
      have here := same 0 (by omega)
      rw [Nat.add_zero, Nat.add_zero] at here
      have further : cutFrom character (offset + width (character first)) start stop rest =
          cutFrom character (other + width (character first)) left right rest := by
        apply ih
        intro units within
        rw [Nat.add_assoc, Nat.add_assoc]
        exact same _ (by omega)
      simp only [cutFrom, here, further]

theorem cutFrom_of_inside {offset start stop : Nat} {items : List α} (fromStart : start ≤ offset)
    (toStop : offset + extent character items ≤ stop) :
    cutFrom character offset start stop items = items := by
  induction items generalizing offset with
  | nil => rfl
  | cons first rest ih =>
      have wide := width_pos (character first)
      rw [extent_cons] at toStop
      rw [cutFrom, if_pos (by omega), ih (by omega) (by omega)]

theorem cut_map {other : β → Char} {change : α → β}
    (same : ∀ item, other (change item) = character item) (start stop : Nat) (items : List α) :
    cut other start stop (items.map change) = (cut character start stop items).map change := by
  have fromOffset (offset : Nat) : cutFrom other offset start stop (items.map change) =
      (cutFrom character offset start stop items).map change := by
    induction items generalizing offset with
    | nil => rfl
    | cons first rest ih =>
        rw [List.map_cons, cutFrom, cutFrom, ih, same]
        split <;> rfl
  exact fromOffset 0

/-! ### Cuts and boundaries -/

variable {front back items : List α} {start stop : Nat}

theorem cut_whole : cut character 0 (extent character items) items = items := by
  apply cutFrom_of_inside (Nat.le_refl 0)
  exact Nat.le_of_eq (Nat.zero_add _)

theorem cut_append_of_le (within : stop ≤ extent character front) :
    cut character start stop (front ++ back) = cut character start stop front := by
  have nothing : cutFrom character (0 + extent character front) start stop back = [] :=
    cutFrom_of_stop_le (by omega)
  rw [cut, cutFrom_append, nothing, List.append_nil]
  rfl

theorem cut_append_of_across (inFront : start ≤ extent character front) :
    cut character start (extent character front + stop) (front ++ back) =
      cut character start (extent character front) front ++ cut character 0 stop back := by
  rw [cut, cutFrom_append]
  congr 1
  · apply cutFrom_congr
    intro units within
    omega
  · apply cutFrom_congr
    intro units _
    omega

theorem cut_append_shift (character : α → Char) (front back : List α) (start stop : Nat) :
    cut character (extent character front + start) (extent character front + stop)
      (front ++ back) = cut character start stop back := by
  have nothing : cutFrom character 0 (extent character front + start)
      (extent character front + stop) front = [] := cutFrom_of_le (by omega)
  rw [cut, cutFrom_append, nothing, List.nil_append]
  apply cutFrom_congr
  intro units _
  omega

theorem cut_middle (character : α → Char) (front middle back : List α) :
    cut character (extent character front) (extent character front + extent character middle)
      (front ++ middle ++ back) = middle := by
  have within : extent character front + extent character middle ≤
      extent character (front ++ middle) := Nat.le_of_eq (extent_append _ _ _).symm
  have shifted := cut_append_shift character front middle 0 (extent character middle)
  rw [Nat.add_zero, cut_whole] at shifted
  rw [cut_append_of_le within, shifted]

/-- At a character boundary the items fall into what stands in front of it and the rest. -/
theorem exists_split_of_aligned {offset : Nat} (aligned : Aligned (items.map character) offset) :
    ∃ front back, items = front ++ back ∧ extent character front = offset := by
  have parts := take_append_drop offset (items.map character)
  obtain ⟨front, back, whole, isFront, _⟩ := List.map_eq_append_iff.mp parts.symm
  refine ⟨front, back, whole, ?_⟩
  rw [extent, isFront]
  exact aligned

end SourceWeave.Utf16
