import SourceWeave.Proofs.Places

/-!
Cutting characters by UTF-16 units. A cut leaves the longest front that fits, so
two cuts of one text agree on what stands between them, and an offset that falls
between two characters is hit exactly.
-/

set_option autoImplicit false

namespace SourceWeave

namespace Utf16

theorem width_pos (character : Char) : 0 < width character := by
  unfold width
  split <;> omega

theorem width_le_two (character : Char) : width character ≤ 2 := by
  unfold width
  split <;> omega

@[simp]
theorem length_nil : length [] = 0 :=
  rfl

@[simp]
theorem length_cons (character : Char) (rest : List Char) :
    length (character :: rest) = width character + length rest :=
  rfl

@[simp]
theorem length_append (front back : List Char) :
    length (front ++ back) = length front + length back := by
  induction front with
  | nil => simp
  | cons character rest ih => simp [ih, Nat.add_assoc]

theorem length_eq_zero {characters : List Char} : length characters = 0 ↔ characters = [] := by
  constructor
  · intro empty
    cases characters with
    | nil => rfl
    | cons character rest =>
        have wide := width_pos character
        rw [length_cons] at empty
        omega
  · intro empty
    rw [empty, length_nil]

theorem length_take_le (units : Nat) (characters : List Char) :
    length (take units characters) ≤ units := by
  induction characters generalizing units with
  | nil => exact Nat.zero_le units
  | cons character rest ih =>
      unfold take
      split
      · rename_i fits
        have tail := ih (units - width character)
        rw [length_cons]
        omega
      · exact Nat.zero_le units

theorem take_append_of_full {units : Nat} {front back : List Char}
    (fits : length front ≤ units)
    (full : ∀ character rest, back = character :: rest → units < length front + width character) :
    take units (front ++ back) = front := by
  induction front generalizing units with
  | nil =>
      cases back with
      | nil => rfl
      | cons character rest =>
          have tooWide := full character rest rfl
          rw [length_nil] at tooWide
          exact if_neg (by omega)
  | cons character rest ih =>
      rw [length_cons] at fits
      rw [List.cons_append, take, if_pos (by omega), ih (by omega)]
      intro next others same
      have tooWide := full next others same
      rw [length_cons] at tooWide
      omega

theorem full_of_take {units : Nat} {characters : List Char} {next : Char} {rest : List Char}
    (cut : drop units characters = next :: rest) :
    units < length (take units characters) + width next := by
  induction characters generalizing units with
  | nil => cases cut
  | cons character others ih =>
      unfold drop at cut
      unfold take
      by_cases fits : width character ≤ units
      · rw [if_pos fits] at cut ⊢
        have tail := ih cut
        rw [length_cons]
        omega
      · rw [if_neg fits] at cut ⊢
        obtain ⟨same, _⟩ := List.cons.inj cut
        rw [length_nil, ← same]
        omega

theorem take_of_length_le {units : Nat} {characters : List Char}
    (fits : length characters ≤ units) : take units characters = characters := by
  have full : ∀ character rest, ([] : List Char) = character :: rest →
      units < length characters + width character := by
    intro character rest impossible
    cases impossible
  have whole := take_append_of_full fits full
  rwa [List.append_nil] at whole

/-- A cut within the text misses its offset by one unit at most. -/
theorem le_length_take_succ {units : Nat} {characters : List Char}
    (within : units ≤ length characters) : units ≤ length (take units characters) + 1 := by
  have parts := take_append_drop units characters
  cases cut : drop units characters with
  | nil =>
      rw [cut, List.append_nil] at parts
      rw [parts]
      omega
  | cons next rest =>
      have tooWide := full_of_take cut
      have narrow := width_le_two next
      omega

/-! ### Between two cuts -/

def between (start stop : Nat) (characters : List Char) : List Char :=
  take (stop - length (take start characters)) (drop start characters)

theorem take_append_between {start stop : Nat} (inOrder : start ≤ stop)
    (characters : List Char) :
    take start characters ++ between start stop characters = take stop characters := by
  induction characters generalizing start stop with
  | nil => rfl
  | cons character rest ih =>
      unfold between
      by_cases fits : width character ≤ start
      · have shorter : start - width character ≤ stop - width character := by omega
        have tail := ih shorter
        have fitsStop : width character ≤ stop := by omega
        have remaining : stop - length (character :: take (start - width character) rest) =
            stop - width character - length (take (start - width character) rest) := by
          rw [length_cons]
          omega
        rw [take, drop, take, if_pos fits, if_pos fits, if_pos fitsStop, remaining,
          List.cons_append]
        exact congrArg (character :: ·) tail
      · have noFront : take start (character :: rest) = [] := if_neg fits
        have allLeft : drop start (character :: rest) = character :: rest := if_neg fits
        rw [noFront, allLeft, List.nil_append, length_nil, Nat.sub_zero]

theorem between_append_between {start middle stop : Nat} (fromStart : start ≤ middle)
    (toStop : middle ≤ stop) (characters : List Char) :
    between start middle characters ++ between middle stop characters =
      between start stop characters := by
  have joined : take start characters ++
        (between start middle characters ++ between middle stop characters) =
      take start characters ++ between start stop characters := by
    rw [← List.append_assoc, take_append_between fromStart, take_append_between toStop,
      take_append_between (Nat.le_trans fromStart toStop)]
  exact List.append_cancel_left joined

/-- An offset that falls between two characters, or at an end of the text. -/
def Aligned (characters : List Char) (offset : Nat) : Prop :=
  length (take offset characters) = offset

instance (characters : List Char) (offset : Nat) : Decidable (Aligned characters offset) :=
  inferInstanceAs (Decidable (_ = _))

theorem aligned_zero (characters : List Char) : Aligned characters 0 :=
  Nat.le_zero.mp (length_take_le 0 characters)

theorem aligned_length (characters : List Char) : Aligned characters (length characters) := by
  unfold Aligned
  rw [take_of_length_le (Nat.le_refl _)]

theorem length_between {start stop : Nat} {characters : List Char} (inOrder : start ≤ stop)
    (startAligned : Aligned characters start) (stopAligned : Aligned characters stop) :
    length (between start stop characters) = stop - start := by
  have parts := congrArg length (take_append_between inOrder characters)
  rw [length_append, startAligned, stopAligned] at parts
  omega

theorem take_zero (characters : List Char) : take 0 characters = [] :=
  length_eq_zero.mp (aligned_zero characters)

theorem between_of_lt {start stop : Nat} {characters : List Char} (backwards : stop < start)
    (startAligned : Aligned characters start) : between start stop characters = [] := by
  have noUnits : stop - length (take start characters) = 0 := by
    rw [startAligned]
    omega
  rw [between, noUnits, take_zero]

theorem between_zero_length (characters : List Char) :
    between 0 (length characters) characters = characters := by
  have parts := take_append_between (Nat.zero_le (length characters)) characters
  rwa [take_zero, List.nil_append, take_of_length_le (Nat.le_refl _)] at parts

/-! ### Boundaries of texts one after the other -/

theorem Aligned.le_length {characters : List Char} {offset : Nat}
    (aligned : Aligned characters offset) : offset ≤ length characters := by
  have parts := congrArg length (take_append_drop offset characters)
  have taken : length (take offset characters) = offset := aligned
  rw [length_append, taken] at parts
  omega

theorem aligned_append_iff {front back : List Char} {offset : Nat}
    (inFront : offset ≤ length front) :
    Aligned (front ++ back) offset ↔ Aligned front offset := by
  have sameTake : take offset (front ++ back) = take offset front := by
    induction front generalizing offset with
    | nil => rw [Nat.le_zero.mp inFront, take_zero, take_zero]
    | cons character rest ih =>
        rw [length_cons] at inFront
        rw [List.cons_append, take, take]
        split
        · rw [ih (by omega)]
        · rfl
  rw [Aligned, Aligned, sameTake]

theorem take_append_shift (front back : List Char) (offset : Nat) :
    take (length front + offset) (front ++ back) = front ++ take offset back := by
  induction front with
  | nil => rw [length_nil, Nat.zero_add]; rfl
  | cons character rest ih =>
      have remaining : length (character :: rest) + offset - width character =
          length rest + offset := by
        rw [length_cons]
        omega
      rw [List.cons_append, take, if_pos (by rw [length_cons]; omega), remaining, ih]
      rfl

theorem take_length_append (front back : List Char) :
    take (length front) (front ++ back) = front := by
  have taken := take_append_shift front back 0
  rwa [Nat.add_zero, take_zero, List.append_nil] at taken

theorem aligned_append_shift_iff (front back : List Char) (offset : Nat) :
    Aligned (front ++ back) (length front + offset) ↔ Aligned back offset := by
  rw [Aligned, Aligned, take_append_shift, length_append]
  omega

end Utf16

namespace Position

theorem line_behind_le (place : Position) (characters : List Char) :
    (place.behind characters).line ≤ place.line + Utf16.length characters := by
  induction characters generalizing place with
  | nil => exact Nat.le_refl _
  | cons character rest ih =>
      have further := ih (place.next character)
      have positive := Utf16.width_pos character
      have nextLine : (place.next character).line ≤ place.line + 1 := by
        unfold next
        split
        · exact Nat.le_refl _
        · exact Nat.le_succ _
      rw [behind_cons, Utf16.length_cons]
      omega

/-- Wherever a cut is moved, a later cut comes to stand behind what is between them. -/
theorem relocate_behind_take {start stop : Nat} (inOrder : start ≤ stop) (characters : List Char)
    (target : Position) :
    (first.behind (Utf16.take stop characters)).relocate
        (first.behind (Utf16.take start characters)) target =
      target.behind (Utf16.between start stop characters) := by
  rw [← Utf16.take_append_between inOrder, behind_append, relocate_behind _ _ _ _ (le_refl _),
    relocate_self]

/-- The place of an offset. An offset inside a character counts one column more
than the character it is cut in front of. -/
def ofOffset (characters : List Char) (offset : Nat) : Position :=
  ⟨(first.behind (Utf16.take offset characters)).line,
    (first.behind (Utf16.take offset characters)).column +
      (offset - Utf16.length (Utf16.take offset characters))⟩

theorem ofOffset_of_aligned {characters : List Char} {offset : Nat}
    (aligned : Utf16.Aligned characters offset) :
    ofOffset characters offset = first.behind (Utf16.take offset characters) := by
  unfold ofOffset
  rw [aligned, Nat.sub_self]
  rfl

theorem ofOffset_zero (characters : List Char) : ofOffset characters 0 = first := by
  rw [ofOffset_of_aligned (Utf16.aligned_zero characters), Utf16.take_zero, behind_nil]

theorem ofOffset_line (characters : List Char) (offset : Nat) :
    (ofOffset characters offset).line = (first.behind (Utf16.take offset characters)).line :=
  rfl

theorem ofOffset_line_le (characters : List Char) (offset : Nat) :
    (ofOffset characters offset).line ≤ offset + 1 := by
  have lines := line_behind_le first (Utf16.take offset characters)
  have cut := Utf16.length_take_le offset characters
  rw [first_line] at lines
  rw [ofOffset_line]
  omega

theorem behind_le_ofOffset (characters : List Char) (offset : Nat) :
    first.behind (Utf16.take offset characters) ≤ ofOffset characters offset := by
  rw [le_iff]
  exact Or.inr ⟨rfl, Nat.le_add_right _ _⟩

theorem ofOffset_column_le {characters : List Char} {offset : Nat}
    (within : offset ≤ Utf16.length characters) :
    (ofOffset characters offset).column ≤
      (first.behind (Utf16.take offset characters)).column + 1 := by
  have near := Utf16.le_length_take_succ within
  unfold ofOffset
  simp only
  omega

theorem ofOffset_lt_ofOffset {characters : List Char} {start stop : Nat} (inOrder : start < stop)
    (within : stop ≤ Utf16.length characters) :
    ofOffset characters start < ofOffset characters stop := by
  have fits := Utf16.length_take_le start characters
  have parts := Utf16.take_append_drop start characters
  have whole := Utf16.take_append_between (Nat.le_of_lt inOrder) characters
  cases cut : Utf16.drop start characters with
  | nil =>
      rw [cut, List.append_nil] at parts
      rw [parts] at fits
      omega
  | cons next rest =>
      have tooWide := Utf16.full_of_take cut
      rw [Utf16.between, cut, Utf16.take] at whole
      split at whole
      · -- The character behind the first cut comes before the second one.
        refine lt_of_lt_of_le ?_ (behind_le_ofOffset characters stop)
        rw [← whole, behind_append, behind_cons]
        refine lt_of_lt_of_le ?_ (le_behind _ _)
        rw [lt_iff, ofOffset, Position.next]
        split
        · exact Or.inl (Nat.lt_succ_self _)
        · exact Or.inr ⟨rfl, by simp only; omega⟩
      · -- Both offsets are cut in front of the same character.
        rw [List.append_nil] at whole
        rw [lt_iff, ofOffset, ofOffset, ← whole]
        exact Or.inr ⟨rfl, by simp only; omega⟩

theorem ofOffset_le_ofOffset {characters : List Char} {start stop : Nat} (inOrder : start ≤ stop)
    (within : stop ≤ Utf16.length characters) :
    ofOffset characters start ≤ ofOffset characters stop := by
  rcases Nat.lt_or_eq_of_le inOrder with before | same
  · exact le_of_lt (ofOffset_lt_ofOffset before within)
  · exact same ▸ le_refl _

end Position

end SourceWeave
