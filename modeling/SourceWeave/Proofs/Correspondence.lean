import SourceWeave.Proofs.GuardedReading

/-!
Offsets and places of a text, one to one and in order. An offset within the text lies at one
place of one line, a place of a line has one offset, and a later offset lies at a later place.
What is asked for beyond that is refused, with how far one may go.
-/

set_option autoImplicit false

namespace SourceWeave

namespace IndexedText

/-- A place in one of the lines, at most behind the last unit of the line. -/
def HasPlace (whole : IndexedText) (place : Position) : Prop :=
  1 ≤ place.line ∧ place.line ≤ whole.lineCount ∧
    ∃ length, whole.lineLength place.line = .ok length ∧ place.column ≤ length

section Lines

variable (whole : IndexedText)

theorem lineLength_outside {line : Nat} (outside : line = 0 ∨ whole.lineCount < line) :
    whole.lineLength line = .error (.outOfRange .line line whole.lineCount) :=
  if_pos outside

theorem bounds_of_lineLength {line length : Nat} (isLength : whole.lineLength line = .ok length) :
    1 ≤ line ∧ line ≤ whole.lineCount := by
  have inside : ¬ (line = 0 ∨ whole.lineCount < line) := by
    intro outside
    rw [whole.lineLength_outside outside] at isLength
    cases isLength
  omega

theorem exists_lineLength {line : Nat} (inside : ¬ (line = 0 ∨ whole.lineCount < line)) :
    ∃ length, whole.lineLength line = .ok length := by
  unfold lineLength
  rw [if_neg inside]
  exact ⟨_, rfl⟩

theorem exists_offsetAt_iff {line column : Nat} :
    (∃ offset, whole.offsetAt line column = .ok offset) ↔ whole.HasPlace ⟨line, column⟩ := by
  constructor
  · intro found
    obtain ⟨offset, found⟩ := found
    obtain ⟨length, isLength, found⟩ := exists_of_bind_eq_ok found
    obtain ⟨fromOne, within⟩ := whole.bounds_of_lineLength isLength
    refine ⟨fromOne, within, length, isLength, ?_⟩
    apply Nat.le_of_not_lt
    intro behind
    rw [if_pos behind] at found
    cases found
  · intro hasPlace
    obtain ⟨_, _, length, isLength, inLine⟩ := hasPlace
    rw [offsetAt, isLength, ok_bind, if_neg (Nat.not_lt.mpr inLine)]
    exact ⟨_, rfl⟩

theorem offsetAt_refused {line column : Nat} {cause : MappingError}
    (refused : whole.offsetAt line column = .error cause) :
    (line = 0 ∨ whole.lineCount < line) ∧ cause = .outOfRange .line line whole.lineCount ∨
      ∃ length, whole.lineLength line = .ok length ∧ length < column ∧
        cause = .outOfRange .column column length := by
  by_cases outside : line = 0 ∨ whole.lineCount < line
  · rw [offsetAt, whole.lineLength_outside outside] at refused
    cases refused
    exact Or.inl ⟨outside, rfl⟩
  · obtain ⟨length, isLength⟩ := whole.exists_lineLength outside
    rw [offsetAt, isLength, ok_bind] at refused
    by_cases behind : length < column
    · rw [if_pos behind] at refused
      cases refused
      exact Or.inr ⟨length, isLength, behind, rfl⟩
    · rw [if_neg behind] at refused
      cases refused

end Lines

section Offsets

variable {text : String}

theorem positionAt_outside {offset : Nat} (outside : utf16Length text < offset) :
    (ofString text).positionAt offset = .error (.outOfRange .offset offset (utf16Length text)) := by
  rw [positionAt, checkOffset, length_ofString, if_pos outside]
  rfl

theorem positionAt_eq_ok_iff {offset : Nat} {place : Position} :
    (ofString text).positionAt offset = .ok place ↔
      offset ≤ utf16Length text ∧ Position.ofOffset text.toList offset = place := by
  by_cases within : offset ≤ utf16Length text
  · rw [positionAt_eq within, Except.ok.injEq, and_iff_right within]
  · rw [positionAt_outside (Nat.lt_of_not_le within)]
    exact iff_of_false (fun impossible => by cases impossible) fun both => within both.1

theorem offsetAt_eq_ok_iff_positionAt {line column offset : Nat} :
    (ofString text).offsetAt line column = .ok offset ↔
      (ofString text).positionAt offset = .ok ⟨line, column⟩ := by
  rw [offsetAt_eq_ok_iff, positionAt_eq_ok_iff]

theorem exists_positionAt_iff {place : Position} :
    (∃ offset, (ofString text).positionAt offset = .ok place) ↔ (ofString text).HasPlace place := by
  rw [← exists_offsetAt_iff]
  exact exists_congr fun offset => offsetAt_eq_ok_iff_positionAt.symm

theorem ofOffset_lt_ofOffset_iff {earlier later : Nat} (earlierWithin : earlier ≤ utf16Length text)
    (laterWithin : later ≤ utf16Length text) :
    Position.ofOffset text.toList earlier < Position.ofOffset text.toList later ↔
      earlier < later := by
  constructor
  · intro before
    apply Nat.lt_of_not_le
    intro notBefore
    rcases Nat.lt_or_eq_of_le notBefore with behind | same
    · have after := Position.ofOffset_lt_ofOffset behind earlierWithin
      exact Position.not_lt.mpr (Position.le_of_lt after) before
    · rw [same] at before
      exact Position.lt_irrefl _ before
  · exact fun before => Position.ofOffset_lt_ofOffset before laterWithin

theorem positionAt_length (text : String) :
    (ofString text).positionAt (utf16Length text) = .ok (ofString text).endPosition := by
  rw [positionAt_eq (Nat.le_refl _), endPosition_ofString, utf16Length,
    Position.ofOffset_of_aligned (Utf16.aligned_length _),
    Utf16.take_of_length_le (Nat.le_refl _)]

end Offsets

end IndexedText

/-! ### Under guards -/

namespace Guarded

open IndexedText

def lineLength (whole : IndexedText) (line : Nat) : Guarded Nat := do
  if line = 0 ∨ whole.lineCount < line then
    passed (.error (.outOfRange .line line whole.lineCount))
  else
    let index ← minus line 1
    let stop ← match whole.index.lineStarts[index + 1]? with
      | some next => minus next 1
      | none => pure whole.length
    minus stop (← entry whole.index.lineStarts index)

def offsetAt (whole : IndexedText) (line column : Nat) : Guarded Nat := do
  let length ← lineLength whole line
  if length < column then
    passed (.error (.outOfRange .column column length))
  else
    return (← entry whole.index.lineStarts (← minus line 1)) + column

theorem lineLength_ofString (text : String) (line : Nat) :
    lineLength (ofString text) line = passed ((ofString text).lineLength line) := by
  unfold lineLength IndexedText.lineLength
  by_cases outside : line = 0 ∨ (ofString text).lineCount < line
  · rw [if_pos outside, if_pos outside]
  · have inText : line - 1 < (ofString text).lineCount := by omega
    have isStart := List.getElem?_eq_getElem (Nat.lt_of_lt_of_eq inText Array.length_toList.symm)
    have toStop := start_le_lineStop isStart
    have isLine : line - 1 + 1 = line := by omega
    rw [← startOf_of_getElem? isStart, lineStop, isLine, Array.getElem?_toList] at toStop
    rw [if_neg outside, if_neg outside, minus_of_le (by omega), pure_bind, isLine,
      entry_lineStarts inText]
    cases isNext : (ofString text).index.lineStarts[line]? with
    | none =>
        rw [isNext, ← length_ofString] at toStop
        simp only
        rw [pure_bind, pure_bind, passed_ok, minus_of_le toStop]
    | some next =>
        rw [isNext] at toStop
        have before : 1 ≤ next := by
          rw [← isLine, ← Array.getElem?_toList] at isNext
          exact Nat.one_le_of_lt (start_lt_next isStart isNext)
        simp only
        rw [minus_of_le before, pure_bind, pure_bind, passed_ok, minus_of_le toStop]

theorem offsetAt_ofString (text : String) (line column : Nat) :
    offsetAt (ofString text) line column = passed ((ofString text).offsetAt line column) := by
  rw [offsetAt, lineLength_ofString]
  apply passed_bind
  intro length isLength
  by_cases behind : length < column
  · rw [if_pos behind, if_pos behind]
  · obtain ⟨fromOne, within⟩ := bounds_of_lineLength _ isLength
    rw [if_neg behind, if_neg behind, minus_of_le fromOne, pure_bind,
      entry_lineStarts (by omega), pure_bind]
    rfl

end Guarded

/-! ### Both ways -/

namespace IndexedText

/-- The offsets of a text up to its length lie at its places, one to one and in order, and the last
of them at its end. To look up an offset undoes to look up a place, and the other way round. All
else is refused, with what was asked for and how far one may go. No guard fails on the way. -/
structure Correspondence (text : String) (whole : IndexedText) : Prop where
  found : ∀ offset place, whole.positionAt offset = .ok place ↔
    offset ≤ utf16Length text ∧ Position.ofOffset text.toList offset = place
  behind : ∀ offset, utf16Length text < offset →
    whole.positionAt offset = .error (.outOfRange .offset offset (utf16Length text))
  inOrder : ∀ earlier later start stop, whole.positionAt earlier = .ok start →
    whole.positionAt later = .ok stop → (start < stop ↔ earlier < later)
  places : ∀ place, (∃ offset, whole.positionAt offset = .ok place) ↔ whole.HasPlace place
  offsets : ∀ line column,
    (∃ offset, whole.offsetAt line column = .ok offset) ↔ whole.HasPlace ⟨line, column⟩
  inverse : ∀ line column offset, whole.offsetAt line column = .ok offset ↔
    whole.positionAt offset = .ok ⟨line, column⟩
  refused : ∀ line column cause, whole.offsetAt line column = .error cause →
    (line = 0 ∨ whole.lineCount < line) ∧ cause = .outOfRange .line line whole.lineCount ∨
      ∃ length, whole.lineLength line = .ok length ∧ length < column ∧
        cause = .outOfRange .column column length
  atEnd : whole.positionAt (utf16Length text) = .ok whole.endPosition
  guardedPosition : ∀ offset,
    Guarded.positionAt whole offset = Guarded.passed (whole.positionAt offset)
  guardedOffset : ∀ line column,
    Guarded.offsetAt whole line column = Guarded.passed (whole.offsetAt line column)
  guardedEnd : Guarded.endPosition whole = pure whole.endPosition

theorem offsets_correspond {text : String} (short : utf16Length text < 2 ^ 32 - 1) :
    Correspondence text (ofString text) where
  found _ _ := positionAt_eq_ok_iff
  behind _ := positionAt_outside
  inOrder := by
    intro earlier later start stop isStart isStop
    obtain ⟨earlierWithin, isStart⟩ := positionAt_eq_ok_iff.mp isStart
    obtain ⟨laterWithin, isStop⟩ := positionAt_eq_ok_iff.mp isStop
    rw [← isStart, ← isStop]
    exact ofOffset_lt_ofOffset_iff earlierWithin laterWithin
  places _ := exists_positionAt_iff
  offsets _ _ := exists_offsetAt_iff _
  inverse _ _ _ := offsetAt_eq_ok_iff_positionAt
  refused _ _ _ := offsetAt_refused _
  atEnd := positionAt_length text
  guardedPosition := Guarded.positionAt_ofString short
  guardedOffset := Guarded.offsetAt_ofString text
  guardedEnd := Guarded.endPosition_ofString short

/-- An empty line, an offset inside of a character, the place of a newline, which no place of its
line follows, and an empty line at the end. -/
theorem offsets_correspond_newlines :
    let whole := ofString "a\n\n😀b\n"
    utf16Length "a\n\n😀b\n" < 2 ^ 32 - 1 ∧ whole.offsetAt 2 0 = .ok 2 ∧
      whole.offsetAt 3 1 = .ok 4 ∧ whole.offsetAt 3 3 = .ok 6 ∧
      (¬ ∃ offset, whole.positionAt offset = .ok ⟨3, 4⟩) ∧
      whole.positionAt 7 = .ok whole.endPosition ∧
      whole.positionAt 8 = .error (.outOfRange .offset 8 7) := by
  intro whole
  have short : utf16Length "a\n\n😀b\n" < 2 ^ 32 - 1 := by decide
  have told := offsets_correspond short
  refine ⟨short, ?_, ?_, ?_, ?_, told.atEnd, told.behind 8 (by decide)⟩
  · exact (told.inverse 2 0 2).mpr ((told.found 2 _).mpr (by decide +kernel))
  · exact (told.inverse 3 1 4).mpr ((told.found 4 _).mpr (by decide +kernel))
  · exact (told.inverse 3 3 6).mpr ((told.found 6 _).mpr (by decide +kernel))
  · intro lies
    obtain ⟨_, _, length, isLength, inLine⟩ := (told.places ⟨3, 4⟩).mp lies
    have isThree : whole.lineLength 3 = .ok 3 := by decide +kernel
    rw [isThree] at isLength
    cases isLength
    exact absurd inLine (by decide)

end IndexedText

end SourceWeave
