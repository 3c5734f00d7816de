import SourceWeave.Proofs.Cutting
import SourceWeave.Proofs.Excerpt

/-!
Texts cell by cell. A cell is a character with what is said of its own place and of all
places up to the next character, also of those that no character stands at. The cells
of a text tell all that is said of it, and move with its characters.
-/

set_option autoImplicit false

namespace SourceWeave

theorem Position.between_next_iff {place between : Position} {character : Char} :
    place ≤ between ∧ between < place.next character ↔
      ∃ distance, (character = '\n' ∨ distance < Utf16.width character) ∧
        between = ⟨place.line, place.column + distance⟩ := by
  rw [Position.le_iff, Position.lt_iff]
  unfold Position.next
  constructor
  · intro inside
    have sameLine : between.line = place.line := by
      by_cases newline : character = '\n'
      · rw [if_pos newline] at inside
        simp only at inside
        omega
      · rw [if_neg newline] at inside
        simp only at inside
        omega
    refine ⟨between.column - place.column, ?_, Position.ext sameLine ?_⟩
    · by_cases newline : character = '\n'
      · exact Or.inl newline
      · rw [if_neg newline] at inside
        simp only at inside
        exact Or.inr (by omega)
    · simp only
      omega
  · intro along
    obtain ⟨distance, near, isBetween⟩ := along
    rw [isBetween]
    refine ⟨Or.inr ⟨rfl, Nat.le_add_right _ _⟩, ?_⟩
    by_cases newline : character = '\n'
    · rw [if_pos newline]
      exact Or.inl (Nat.lt_succ_self _)
    · rw [if_neg newline]
      exact Or.inr ⟨rfl, Nat.add_lt_add_left (near.resolve_left newline) _⟩

theorem Position.relocate_beside {place target : Position} (fromTarget : target ≤ place)
    (origin : Position) (distance : Nat) :
    (Position.mk place.line (place.column + distance)).relocate target origin =
      ⟨(place.relocate target origin).line,
        (place.relocate target origin).column + distance⟩ := by
  rw [Position.le_iff] at fromTarget
  apply Position.ext
  · simp only [Position.relocate_line]
  · simp only [Position.relocate_column]
    split <;> omega

/-- What a copy says of its first place, where a segment always stands. -/
def Mapping.Reading.opened (reading : Mapping.Reading) : Mapping.Reading :=
  { reading with standing := some reading.standing.join }

namespace Mapping.Reading

theorem copiedFrom_self (start : Position) : copiedFrom start start = opened := by
  funext reading
  exact if_pos rfl

theorem copiedFrom_of_lt {start place : Position} (behind : start < place) :
    copiedFrom start place = id := by
  apply copiedFrom_of_ne
  intro same
  rw [same] at behind
  exact Position.lt_irrefl start behind

end Mapping.Reading

/-! ### Cells -/

structure Cell where
  character : Char
  readingAt : Nat → Option Mapping.Reading

namespace Cell

theorem ext {left right : Cell} (sameCharacter : left.character = right.character)
    (same : ∀ distance, left.readingAt distance = right.readingAt distance) : left = right := by
  cases left
  cases right
  cases sameCharacter
  cases funext same
  rfl

def silent (character : Char) : Cell :=
  ⟨character, fun _ => none⟩

/-- A character with what an account says of its places. A newline has the rest of its
line, any other character as many places as units. -/
def told (account : Position → Option Mapping.Reading) (place : Position) (character : Char) :
    Cell where
  character
  readingAt distance :=
    if character = '\n' ∨ distance < Utf16.width character then
      account ⟨place.line, place.column + distance⟩
    else none

def along (account : Position → Option Mapping.Reading) (place : Position) : List Char → List Cell
  | [] => []
  | character :: rest =>
      told account place character :: along account (place.next character) rest

variable {account other : Position → Option Mapping.Reading} {place : Position}

theorem told_eq_iff {character : Char} :
    told account place character = told other place character ↔
      ∀ between, place ≤ between → between < place.next character →
        account between = other between := by
  constructor
  · intro same between fromPlace beforeNext
    obtain ⟨distance, near, isBetween⟩ := Position.between_next_iff.mp ⟨fromPlace, beforeNext⟩
    have atDistance := congrFun (congrArg Cell.readingAt same) distance
    simp only [told, if_pos near] at atDistance
    rw [isBetween, atDistance]
  · intro same
    refine ext rfl ?_
    intro distance
    simp only [told]
    by_cases near : character = '\n' ∨ distance < Utf16.width character
    · rw [if_pos near, if_pos near]
      obtain ⟨fromPlace, beforeNext⟩ :
          place ≤ ⟨place.line, place.column + distance⟩ ∧
            (⟨place.line, place.column + distance⟩ : Position) < place.next character :=
        Position.between_next_iff.mpr ⟨distance, near, rfl⟩
      exact same _ fromPlace beforeNext
    · rw [if_neg near, if_neg near]

theorem along_append (account : Position → Option Mapping.Reading) (place : Position)
    (front back : List Char) :
    along account place (front ++ back) =
      along account place front ++ along account (place.behind front) back := by
  induction front generalizing place with
  | nil => rfl
  | cons character rest ih =>
      rw [List.cons_append, along, ih, along, List.cons_append, Position.behind_cons]

theorem map_character_along (account : Position → Option Mapping.Reading) (place : Position)
    (characters : List Char) : (along account place characters).map character = characters := by
  induction characters generalizing place with
  | nil => rfl
  | cons first rest ih =>
      rw [along, List.map_cons, ih]
      rfl

theorem extent_along (account : Position → Option Mapping.Reading) (place : Position)
    (characters : List Char) :
    Utf16.extent character (along account place characters) = Utf16.length characters := by
  rw [Utf16.extent, map_character_along]

/-- Cells are determined by what is said of the places from the first to the end, and
determine it. -/
theorem along_eq_iff {characters : List Char} :
    along account place characters = along other place characters ↔
      ∀ between, place ≤ between → between < place.behind characters →
        account between = other between := by
  induction characters generalizing place with
  | nil =>
      constructor
      · intro _ between fromPlace beforePlace
        exact absurd beforePlace (Position.not_lt.mpr fromPlace)
      · exact fun _ => rfl
  | cons first rest ih =>
      rw [along, along, List.cons.injEq, told_eq_iff, ih, Position.behind_cons]
      constructor
      · intro both between fromPlace inside
        by_cases beforeNext : between < place.next first
        · exact both.1 between fromPlace beforeNext
        · exact both.2 between (Position.not_lt.mp beforeNext) inside
      · intro same
        constructor
        · intro between fromPlace beforeNext
          exact same between fromPlace
            (Position.lt_of_lt_of_le beforeNext (Position.le_behind _ rest))
        · intro between fromNext inside
          have afterPlace := Position.le_of_lt (Position.lt_next place first)
          exact same between (Position.le_trans afterPlace fromNext) inside

theorem along_silent {characters : List Char}
    (nothing : ∀ between, place ≤ between → between < place.behind characters →
      account between = none) :
    along account place characters = characters.map silent := by
  have allSilent : along (fun _ => none) place characters = characters.map silent := by
    clear nothing
    induction characters generalizing place with
    | nil => rfl
    | cons first rest ih =>
        have here : told (fun _ => none) place first = silent first := by
          refine ext rfl ?_
          intro distance
          simp only [told, silent]
          split <;> rfl
        rw [along, List.map_cons, here, ih]
  rw [← allSilent]
  exact along_eq_iff.mpr nothing

theorem along_relocate (account : Position → Option Mapping.Reading) {target : Position}
    (origin : Position) (fromTarget : target ≤ place) (characters : List Char) :
    along (fun moved => account (moved.relocate target origin)) place characters =
      along account (place.relocate target origin) characters := by
  induction characters generalizing place with
  | nil => rfl
  | cons first rest ih =>
      have fromNext := Position.le_trans fromTarget
        (Position.le_of_lt (Position.lt_next place first))
      have here : told (fun moved => account (moved.relocate target origin)) place first =
          told account (place.relocate target origin) first := by
        refine ext rfl ?_
        intro distance
        simp only [told, Position.relocate_beside fromTarget]
      rw [along, along, here, ih fromNext, Position.relocate_next _ _ _ _ fromTarget]

def opened (cell : Cell) : Cell where
  character := cell.character
  readingAt distance :=
    if distance = 0 then (cell.readingAt 0).map Mapping.Reading.opened else cell.readingAt distance

def headed : List Cell → List Cell
  | [] => []
  | first :: rest => first.opened :: rest

theorem opened_silent (character : Char) : (silent character).opened = silent character := by
  refine ext rfl ?_
  intro distance
  simp only [opened, silent]
  split <;> rfl

theorem opened_opened (cell : Cell) : cell.opened.opened = cell.opened := by
  refine ext rfl ?_
  intro distance
  by_cases atStart : distance = 0
  · simp only [opened, if_pos atStart, if_true, Option.map_map]
    rfl
  · simp only [opened, if_neg atStart]

@[simp]
theorem headed_headed (cells : List Cell) : headed (headed cells) = headed cells := by
  cases cells with
  | nil => rfl
  | cons first rest => rw [headed, headed, opened_opened]

@[simp]
theorem headed_silent (characters : List Char) :
    headed (characters.map silent) = characters.map silent := by
  cases characters with
  | nil => rfl
  | cons first rest => rw [List.map_cons, headed, opened_silent]

theorem headed_append (front : List Cell) {back : List Cell} (backHeaded : headed back = back) :
    headed (front ++ back) = headed front ++ back := by
  cases front with
  | nil => exact backHeaded
  | cons first rest => rfl

theorem headed_cut_zero {cells : List Cell} (isHeaded : headed cells = cells) (stop : Nat) :
    headed (Utf16.cut character 0 stop cells) = Utf16.cut character 0 stop cells := by
  cases cells with
  | nil => rfl
  | cons first rest =>
      obtain ⟨firstOpened, _⟩ := List.cons.inj isHeaded
      by_cases some : 0 < stop
      · rw [Utf16.cut, Utf16.cutFrom, if_pos ⟨Nat.le_refl 0, some⟩, headed, firstOpened]
      · have nothing : Utf16.cut character 0 stop (first :: rest) = [] :=
          Utf16.cutFrom_of_stop_le (Nat.not_lt.mp some)
        rw [nothing]
        rfl

/-- A copy says of its first place what `copiedFrom` says, and otherwise what it copies. -/
theorem along_copiedFrom (account : Position → Option Mapping.Reading) (place : Position)
    (characters : List Char) :
    along (fun between =>
        (account between).map (Mapping.Reading.copiedFrom place between)) place characters =
      headed (along account place characters) := by
  cases characters with
  | nil => rfl
  | cons first rest =>
      have later (between : Position) (behind : place < between) :
          (account between).map (Mapping.Reading.copiedFrom place between) = account between := by
        rw [Mapping.Reading.copiedFrom_of_lt behind, Option.map_id, id]
      rw [along, along, headed]
      congr 1
      · refine ext rfl ?_
        intro distance
        simp only [told, opened]
        by_cases atStart : distance = 0
        · have wide := Utf16.width_pos first
          rw [if_pos atStart, atStart, if_pos (Or.inr wide), if_pos (Or.inr wide), Nat.add_zero,
            Mapping.Reading.copiedFrom_self]
        · rw [if_neg atStart, later]
          rw [Position.lt_iff]
          exact Or.inr ⟨rfl, Nat.lt_add_of_pos_right (Nat.pos_of_ne_zero atStart)⟩
      · apply along_eq_iff.mpr
        intro between fromNext _
        exact later between (Position.lt_of_lt_of_le (Position.lt_next place first) fromNext)

theorem cut_along (account : Position → Option Mapping.Reading) {characters : List Char}
    {start stop : Nat} (startAligned : Utf16.Aligned characters start)
    (stopAligned : Utf16.Aligned characters stop) :
    Utf16.cut character start stop (along account Position.first characters) =
      along account (Position.ofOffset characters start)
        (Utf16.between start stop characters) := by
  by_cases inOrder : start ≤ stop
  case neg =>
    have backwards := Nat.lt_of_not_le inOrder
    rw [Utf16.cut, Utf16.cutFrom_of_lt backwards, Utf16.between_of_lt backwards startAligned]
    rfl
  have parts := Utf16.take_append_drop stop characters
  rw [← Utf16.take_append_between inOrder] at parts
  have whole : along account Position.first characters =
      along account Position.first (Utf16.take start characters) ++
        along account (Position.ofOffset characters start)
          (Utf16.between start stop characters) ++
          along account (Position.first.behind (Utf16.take start characters ++
            Utf16.between start stop characters)) (Utf16.drop stop characters) := by
    rw [Position.ofOffset_of_aligned startAligned, ← along_append, ← along_append, parts]
  have frontExtent : Utf16.extent character
      (along account Position.first (Utf16.take start characters)) = start := by
    rw [extent_along]
    exact startAligned
  have middleExtent : start + Utf16.extent character
      (along account (Position.ofOffset characters start)
        (Utf16.between start stop characters)) = stop := by
    rw [extent_along, Utf16.length_between inOrder startAligned stopAligned]
    omega
  have cut := Utf16.cut_middle character (along account Position.first (Utf16.take start characters))
    (along account (Position.ofOffset characters start) (Utf16.between start stop characters))
    (along account (Position.first.behind (Utf16.take start characters ++
      Utf16.between start stop characters)) (Utf16.drop stop characters))
  rwa [frontExtent, middleExtent, ← whole] at cut

end Cell

/-! ### The cells of a woven text -/

namespace TracedText

def cells (traced : TracedText) : List Cell :=
  Cell.along traced.reading? Position.first traced.text.toList

theorem map_character_cells (traced : TracedText) :
    traced.cells.map Cell.character = traced.text.toList :=
  Cell.map_character_along _ _ _

theorem extent_cells (traced : TracedText) :
    Utf16.extent Cell.character traced.cells = utf16Length traced.text :=
  Cell.extent_along _ _ _

theorem opened_reading?_first (traced : TracedText) :
    (traced.reading? Position.first).map Mapping.Reading.opened =
      traced.reading? Position.first := by
  unfold reading?
  cases traced.provenance with
  | unknown => rfl
  | own identity => rfl
  | mapped mapping =>
      simp only
      cases told : mapping.reading? Position.first with
      | none => rfl
      | some reading =>
          rw [Mapping.reading?, Segment.reading?] at told
          obtain ⟨segment, found, read⟩ := Option.bind_eq_some_iff.mp told
          have covered := Segment.covers_iff.mp (Segment.mem_of_lastCovering found).2
          have stands : segment.position = Position.first :=
            Position.ext covered.1 (Nat.le_zero.mp covered.2)
          have standing := (Segment.stands_iff_of_read _ _ read).mpr stands
          rw [Option.isSome_iff_exists] at standing
          obtain ⟨name, isStanding⟩ := standing
          rw [Option.map_some, Mapping.Reading.opened, isStanding]
          cases reading
          simp only at isStanding
          rw [isStanding]
          rfl

theorem headed_cells (traced : TracedText) : Cell.headed traced.cells = traced.cells := by
  rw [cells, ← Cell.along_copiedFrom]
  apply Cell.along_eq_iff.mpr
  intro between fromFirst _
  by_cases atFirst : between = Position.first
  · rw [atFirst, Mapping.Reading.copiedFrom_self, traced.opened_reading?_first]
  · have behind := Position.lt_of_le_of_ne fromFirst (Ne.symm atFirst)
    rw [Mapping.Reading.copiedFrom_of_lt behind, Option.map_id, id]

end TracedText

end SourceWeave
