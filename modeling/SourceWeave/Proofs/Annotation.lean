import SourceWeave.Proofs.Cells

/-!
Texts character by character, each with what is known of it: where it comes from
and under which name a segment stands at it. That is part of what its cell says, so
that cuts of cells are cuts of such characters.
-/

set_option autoImplicit false

namespace SourceWeave

/-- The name of the traced segment that stands at a place, if there is one. -/
def Mapping.nameAt? (mapping : Mapping) (place : Position) : Option String := do
  let segment ← mapping.segments.toList.find? fun segment => segment.position = place
  let location ← segment.origin
  let _ ← mapping.sources[location.source]?
  mapping.names[← location.name]?

theorem Mapping.nameAt?_eq_reading? (mapping : Mapping) (place : Position) :
    mapping.nameAt? place = (mapping.reading? place).bind fun reading => reading.standing.join := by
  unfold nameAt?
  cases found : mapping.segments.toList.find? fun segment => segment.position = place with
  | some segment =>
      have member := List.mem_of_find?_eq_some found
      have isPlace := List.find?_some found
      have stands : segment.position = place := of_decide_eq_true isPlace
      have told : mapping.reading? segment.position =
          Segment.read mapping.sources mapping.names segment.position segment :=
        Segment.reading?_position mapping.ordered member
      rw [stands] at told
      rw [told, Segment.read]
      cases isOrigin : segment.origin with
      | none => simp [isOrigin]
      | some location =>
          cases isEntry : mapping.sources[location.source]? with
          | none => simp [isOrigin, isEntry]
          | some entry => simp [isOrigin, isEntry, stands]
  | none =>
      rw [Option.bind_eq_bind, Option.bind_none, reading?, Segment.reading?]
      cases covering : Segment.lastCovering place mapping.segments.toList with
      | none => rfl
      | some segment =>
          rw [Option.bind_some]
          cases told : Segment.read mapping.sources mapping.names place segment with
          | none => rfl
          | some reading =>
              have elsewhere : segment.position ≠ place := by
                intro stands
                have inSegments := (Segment.mem_of_lastCovering covering).1
                exact List.find?_eq_none.mp found segment inSegments (decide_eq_true stands)
              have notStanding : reading.standing = none := by
                cases standing : reading.standing with
                | none => rfl
                | some name =>
                    exact absurd ((Segment.stands_iff_of_read _ _ told).mp (by rw [standing]; rfl))
                      elsewhere
              rw [Option.bind_some, notStanding]
              rfl

/-! ### Characters with what is known of them -/

structure TracedChar where
  character : Char
  trace : Option Mapping.Trace
  name : Option String
deriving DecidableEq, Repr

namespace TracedChar

def silent (character : Char) : TracedChar :=
  ⟨character, none, none⟩

def told (character : Char) (reading : Option Mapping.Reading) : TracedChar :=
  ⟨character, reading.map (·.trace), reading.bind fun reading => reading.standing.join⟩

def annotate (account : Position → Option Mapping.Reading) (place : Position) :
    List Char → List TracedChar
  | [] => []
  | character :: rest =>
      told character (account place) :: annotate account (place.next character) rest

/-- The characters that stand at offsets from `start` to before `stop`, the first
of all standing at `offset`. -/
def cutFrom (offset start stop : Nat) : List TracedChar → List TracedChar
  | [] => []
  | first :: rest =>
      if start ≤ offset ∧ offset < stop then
        first :: cutFrom (offset + Utf16.width first.character) start stop rest
      else cutFrom (offset + Utf16.width first.character) start stop rest

def cut (start stop : Nat) (traced : List TracedChar) : List TracedChar :=
  cutFrom 0 start stop traced

end TracedChar

/-! ### Characters of cells -/

def Cell.traced (cell : Cell) : TracedChar :=
  TracedChar.told cell.character (cell.readingAt 0)

namespace TracedChar

variable {account other : Position → Option Mapping.Reading} {place : Position}

theorem annotate_eq (account : Position → Option Mapping.Reading) (place : Position)
    (characters : List Char) :
    annotate account place characters =
      (Cell.along account place characters).map Cell.traced := by
  induction characters generalizing place with
  | nil => rfl
  | cons first rest ih =>
      have here : (Cell.told account place first).traced = told first (account place) := by
        have wide := Utf16.width_pos first
        simp only [Cell.traced, Cell.told, if_pos (Or.inr wide), Nat.add_zero]
      rw [annotate, Cell.along, List.map_cons, here, ih]

theorem annotate_congr {characters : List Char}
    (same : ∀ between character, place ≤ between → between < place.behind characters →
      told character (account between) = told character (other between)) :
    annotate account place characters = annotate other place characters := by
  induction characters generalizing place with
  | nil => rfl
  | cons first rest ih =>
      have afterFirst := Position.lt_next place first
      rw [annotate, annotate,
        same place first (Position.le_refl _) (Position.lt_behind place (List.cons_ne_nil _ _)), ih]
      intro between character fromNext inside
      exact same between character (Position.le_trans (Position.le_of_lt afterFirst) fromNext)
        inside

theorem map_traced_silent (characters : List Char) :
    (characters.map Cell.silent).map Cell.traced = characters.map silent := by
  rw [List.map_map]
  rfl

/-- A copy may begin within a run; that tells nothing else of its first character. -/
theorem map_traced_headed (cells : List Cell) :
    (Cell.headed cells).map Cell.traced = cells.map Cell.traced := by
  cases cells with
  | nil => rfl
  | cons first rest =>
      have here : first.opened.traced = first.traced := by
        simp only [Cell.traced, Cell.opened, if_true, told]
        cases first.readingAt 0 <;> rfl
      rw [Cell.headed, List.map_cons, here, List.map_cons]

theorem cut_eq (start stop : Nat) (traced : List TracedChar) :
    cut start stop traced = Utf16.cut character start stop traced := by
  have fromOffset (offset : Nat) :
      cutFrom offset start stop traced = Utf16.cutFrom character offset start stop traced := by
    induction traced generalizing offset with
    | nil => rfl
    | cons first rest ih => rw [cutFrom, Utf16.cutFrom, ih]
  exact fromOffset 0

theorem map_traced_cut (start stop : Nat) (cells : List Cell) :
    (Utf16.cut Cell.character start stop cells).map Cell.traced =
      cut start stop (cells.map Cell.traced) := by
  have sameCharacter (cell : Cell) : cell.traced.character = cell.character := rfl
  rw [cut_eq, Utf16.cut_map sameCharacter]

end TracedChar

end SourceWeave
