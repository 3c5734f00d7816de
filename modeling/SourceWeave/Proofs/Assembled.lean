import SourceWeave.Proofs.Annotation
import SourceWeave.Proofs.Composition

/-!
What comes of assembling pieces of woven texts: the text of the pieces one after
the other, every copied character with what its child says of it, and tables that
hold what the copied children brought.
-/

set_option autoImplicit false

namespace SourceWeave

namespace TracedText

/-- Where a place of a woven text comes from. A text that is a source of its own is
traced to itself. -/
def trace? (traced : TracedText) (place : Position) : Option Mapping.Trace :=
  match traced.provenance with
  | .unknown => none
  | .own identity => some ⟨some identity, place.line, place.column⟩
  | .mapped mapping => mapping.trace? place

def nameAt? (traced : TracedText) (place : Position) : Option String :=
  match traced.provenance with
  | .mapped mapping => mapping.nameAt? place
  | _ => none

/-- Characters that are read from a place of the text on, with what is known of them. -/
def annotatedFrom (traced : TracedText) (place : Position) : List Char → List TracedChar
  | [] => []
  | character :: rest =>
      ⟨character, traced.trace? place, traced.nameAt? place⟩ ::
        traced.annotatedFrom (place.next character) rest

def annotated (traced : TracedText) : List TracedChar :=
  traced.annotatedFrom Position.first traced.text.toList

theorem told_reading? (traced : TracedText) (place : Position) (character : Char) :
    TracedChar.told character (traced.reading? place) =
      ⟨character, traced.trace? place, traced.nameAt? place⟩ := by
  rw [TracedChar.told, reading?, trace?, nameAt?]
  cases traced.provenance with
  | unknown => rfl
  | own identity => by_cases atStart : place.column = 0 <;> simp [atStart]
  | mapped mapping =>
      simp only
      rw [mapping.trace?_eq_reading?, mapping.nameAt?_eq_reading?]

theorem annotated_eq (traced : TracedText) :
    traced.annotated = TracedChar.annotate traced.reading? Position.first traced.text.toList := by
  have fromPlace (place : Position) (characters : List Char) :
      traced.annotatedFrom place characters =
        TracedChar.annotate traced.reading? place characters := by
    induction characters generalizing place with
    | nil => rfl
    | cons character rest ih =>
        rw [annotatedFrom, TracedChar.annotate, ih, told_reading?]
  exact fromPlace _ _

theorem annotated_eq_map_cells (traced : TracedText) :
    traced.annotated = traced.cells.map Cell.traced := by
  rw [annotated_eq, TracedChar.annotate_eq, cells]

theorem extent_annotated (traced : TracedText) :
    Utf16.extent TracedChar.character traced.annotated = utf16Length traced.text := by
  rw [annotated_eq_map_cells, Utf16.extent, List.map_map]
  exact traced.extent_cells

theorem reading?_of_untracked {traced : TracedText}
    (untracked : traced.provenance.isTracked = false) (place : Position) :
    traced.reading? place = none := by
  unfold reading?
  cases isProvenance : traced.provenance with
  | unknown => rfl
  | own identity =>
      rw [isProvenance] at untracked
      cases untracked
  | mapped mapping =>
      rw [isProvenance] at untracked
      cases untracked

end TracedText

namespace Piece

variable (children : List TracedText)

theorem readings?_of_untracked {pieces : List Piece}
    (untracked : pieces.any (isTracked children) = false) (place target : Position) :
    readings? children place target pieces = none := by
  induction pieces generalizing target with
  | nil => rfl
  | cons piece rest ih =>
      rw [List.any_cons, Bool.or_eq_false_iff] at untracked
      rw [readings?, ih untracked.2]
      split
      · cases piece with
        | copy index start stop =>
            have alone : (children[index]?).any (fun child => child.provenance.isTracked) =
                false := untracked.1
            rw [reading?]
            cases isChild : children[index]? with
            | none => rfl
            | some child =>
                rw [isChild, Option.any_some] at alone
                simp only [Option.bind_some, TracedText.reading?_of_untracked alone,
                  Option.map_none]
        | insert text marked => rfl
      · rfl

end Piece

/-- What has come of assembling. -/
structure Assembled (children : List TracedText) (pieces : List Piece) (woven : TracedText) :
    Prop where
  characters : woven.text.toList = pieces.flatMap (Piece.characters children)
  provenance :
    (pieces.any (Piece.isTracked children) = false ∧ woven.provenance = .unknown) ∨
      (pieces.any (Piece.isTracked children) = true ∧
        ∃ mapping, woven.provenance = .mapped mapping ∧
          mapping.sources.toList =
            SourceRegistry.settle [] (pieces.flatMap (Piece.entries children)) ∧
          mapping.names.toList = enlist id [] (pieces.flatMap (Piece.nameEntries children)) ∧
          mapping.file = none ∧ mapping.sourceRoot = none ∧
          Segment.Tidy mapping.sources.size mapping.names.size
            (Position.first.behind woven.text.toList) mapping.segments.toList)
  reading? : (∀ piece ∈ pieces, piece.Aligned children) →
    ∀ place, Position.first ≤ place → place < Position.first.behind woven.text.toList →
      woven.reading? place = Piece.readings? children place Position.first pieces

theorem assembled_of_assemble {children : List TracedText} {pieces : List Piece}
    {woven : TracedText} (assembled : assemble children pieces true = .ok woven) :
    Assembled children pieces woven := by
  obtain ⟨assembly, ran, assembled⟩ := exists_of_bind_eq_ok assembled
  rw [List.size_toArray, List.length_map] at ran
  have start := Assembly.coherent_initial children
  have coherent := start.run ran
  have extended := start.extended_run ran
  have characters : assembly.output.text.toList =
      pieces.flatMap (Piece.characters children) := extended.characters
  have isTracked : assembly.isTracked = pieces.any (Piece.isTracked children) := by
    rw [extended.tracked, Assembly.isTracked_of_unlinked rfl, Bool.false_or]
  have spoken (aligned : ∀ piece ∈ pieces, piece.Aligned children) (place : Position)
      (numbered : Position.first ≤ place) :
      assembly.reading? place = Piece.readings? children place Position.first pieces := by
    rw [start.reading?_run aligned ran]
    exact if_neg (Position.not_lt.mpr numbered)
  split at assembled
  · rename_i tracked
    obtain ⟨mapping, made, assembled⟩ := exists_of_bind_eq_ok assembled
    cases assembled
    obtain ⟨_, sameSources, sameNames, noFile, noRoot, tidy⟩ := coherent.mapping_eq_ok made
    rw [coherent.endPosition_eq] at tidy
    refine ⟨characters,
      Or.inr ⟨isTracked ▸ tracked, mapping, rfl, ?_, ?_, noFile, noRoot, tidy⟩, ?_⟩
    · rw [sameSources]
      exact extended.sources
    · rw [sameNames]
      exact extended.names
    · intro aligned place numbered inText
      rw [← coherent.endPosition_eq] at inText
      rw [← spoken aligned place numbered]
      exact coherent.reading?_mapping made inText
  · rename_i notTracked
    cases assembled
    rw [Bool.not_eq_true, isTracked] at notTracked
    refine ⟨characters, Or.inl ⟨notTracked, rfl⟩, ?_⟩
    intro _ place _ _
    rw [Piece.readings?_of_untracked children notTracked]
    rfl

/-! ### Cell by cell -/

def Piece.cells (children : List TracedText) : Piece → List Cell
  | .copy index start stop =>
      (children[index]?).elim [] fun child =>
        Cell.headed (Utf16.cut Cell.character start stop child.cells)
  | .insert text _ => text.toList.map Cell.silent

theorem Piece.along_reading? {children : List TracedText} {piece : Piece}
    (aligned : piece.Aligned children) (target : Position) :
    Cell.along (fun place => piece.reading? children target place) target
      (piece.characters children) = piece.cells children := by
  cases piece with
  | copy index start stop =>
      cases isChild : children[index]? with
      | none =>
          rw [characters, cells, isChild]
          rfl
      | some child =>
          obtain ⟨startAligned, stopAligned⟩ := aligned child isChild
          have moved := Cell.along_relocate
            (fun original => (child.reading? original).map (Mapping.Reading.copiedFrom
              (Position.ofOffset child.text.toList start) original))
            (Position.ofOffset child.text.toList start) (Position.le_refl target)
            (Utf16.between start stop child.text.toList)
          rw [Position.relocate_self, Cell.along_copiedFrom] at moved
          rw [characters, cells, isChild, Option.elim_some, Option.elim_some, TracedText.cells,
            Cell.cut_along _ startAligned stopAligned, ← moved]
          apply Cell.along_eq_iff.mpr
          intro between _ _
          rw [reading?, isChild, Option.bind_some]
  | insert text marked => exact Cell.along_silent fun _ _ _ => rfl

theorem Piece.along_readings? {children : List TracedText} {pieces : List Piece}
    (aligned : ∀ piece ∈ pieces, piece.Aligned children) (target : Position) :
    Cell.along (fun place => Piece.readings? children place target pieces) target
      (pieces.flatMap (Piece.characters children)) =
        pieces.flatMap (Piece.cells children) := by
  induction pieces generalizing target with
  | nil => rfl
  | cons piece rest ih =>
      rw [List.flatMap_cons, List.flatMap_cons, Cell.along_append,
        ← Piece.along_reading? (aligned piece List.mem_cons_self) target,
        ← ih (fun other member => aligned other (List.mem_cons_of_mem piece member))
          (target.behind (piece.characters children))]
      congr 1
      · apply Cell.along_eq_iff.mpr
        intro between _ inPiece
        rw [readings?, if_pos inPiece]
      · apply Cell.along_eq_iff.mpr
        intro between fromNext _
        rw [readings?, if_neg (Position.not_lt.mpr fromNext)]

theorem Assembled.cells {children : List TracedText} {pieces : List Piece} {woven : TracedText}
    (result : Assembled children pieces woven)
    (aligned : ∀ piece ∈ pieces, piece.Aligned children) :
    woven.cells = pieces.flatMap (Piece.cells children) := by
  rw [TracedText.cells, ← Piece.along_readings? aligned Position.first, ← result.characters]
  apply Cell.along_eq_iff.mpr
  exact result.reading? aligned

/-! ### Character by character -/

def Piece.annotated (children : List TracedText) : Piece → List TracedChar
  | .copy index start stop =>
      (children[index]?).elim [] fun child => TracedChar.cut start stop child.annotated
  | .insert text _ => text.toList.map TracedChar.silent

theorem Piece.annotated_eq (children : List TracedText) (piece : Piece) :
    piece.annotated children = (piece.cells children).map Cell.traced := by
  cases piece with
  | copy index start stop =>
      rw [annotated, cells]
      cases children[index]? with
      | none => rfl
      | some child =>
          rw [Option.elim_some, Option.elim_some, TracedChar.map_traced_headed,
            TracedChar.map_traced_cut, child.annotated_eq_map_cells]
  | insert text marked => rw [annotated, cells, TracedChar.map_traced_silent]

theorem Piece.annotate_readings? {children : List TracedText} {pieces : List Piece}
    (aligned : ∀ piece ∈ pieces, piece.Aligned children) (target : Position) :
    TracedChar.annotate (fun place => Piece.readings? children place target pieces) target
      (pieces.flatMap (Piece.characters children)) =
        pieces.flatMap (Piece.annotated children) := by
  have sameAnnotated : Piece.annotated children =
      fun piece => (piece.cells children).map Cell.traced := funext (Piece.annotated_eq children)
  rw [TracedChar.annotate_eq, Piece.along_readings? aligned, List.map_flatMap, sameAnnotated]

/-- Assembling takes what is known of every copied character along and says nothing of
what it inserts. -/
theorem assemble_annotated {children : List TracedText} {pieces : List Piece}
    {woven : TracedText} (aligned : ∀ piece ∈ pieces, piece.Aligned children)
    (assembled : assemble children pieces true = .ok woven) :
    woven.text.toList = pieces.flatMap (Piece.characters children) ∧
      woven.annotated = pieces.flatMap (Piece.annotated children) := by
  have result := assembled_of_assemble assembled
  refine ⟨result.characters, ?_⟩
  rw [woven.annotated_eq, ← Piece.annotate_readings? aligned Position.first, ← result.characters]
  apply TracedChar.annotate_congr
  intro between character numbered inText
  rw [result.reading? aligned between numbered inText]

/-- A copy from the middle of a run and over an unknown source, then an insertion, then a
copy over the end of a line. -/
theorem assemble_annotated_interleaved :
    let children : List TracedText :=
      [⟨"ab\ncd", .own "x"⟩,
        ⟨"hello", .mapped
          { segments := #[⟨⟨1, 0⟩, some ⟨0, 7, 2, none⟩⟩, ⟨⟨1, 2⟩, some ⟨0, 8, 0, some 0⟩⟩,
              ⟨⟨1, 3⟩, some ⟨5, 1, 0, none⟩⟩]
            sources := #[⟨some "y", none⟩]
            names := #["n"]
            ordered := Segment.ordered_of_firstDisorder?_eq_none _ rfl
            numbered := by decide }⟩]
    let pieces : List Piece := [.copy 1 1 4, .insert "Q" false, .copy 0 1 4]
    ∃ woven, assemble children pieces true = .ok woven ∧
      woven.annotated =
        [⟨'e', some ⟨some "y", 7, 3⟩, none⟩, ⟨'l', some ⟨some "y", 8, 0⟩, some "n"⟩,
          ⟨'l', none, none⟩, ⟨'Q', none, none⟩, ⟨'b', some ⟨some "x", 1, 1⟩, none⟩,
          ⟨'\n', some ⟨some "x", 1, 2⟩, none⟩, ⟨'c', some ⟨some "x", 2, 0⟩, none⟩] := by
  intro children pieces
  have succeeds : (assemble children pieces true).isOk = true := by decide +kernel
  obtain ⟨woven, assembled⟩ := exists_of_isOk succeeds
  have aligned : ∀ piece ∈ pieces, piece.Aligned children := by decide +kernel
  refine ⟨woven, assembled, ?_⟩
  rw [(assemble_annotated aligned assembled).2]
  decide +kernel

end SourceWeave
