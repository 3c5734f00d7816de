import SourceWeave.Proofs.Annotation
import SourceWeave.Proofs.Building
import SourceWeave.SourceTree.Leaf

/-!
The mapping of a file as it was written. Every line that is not empty is traced to
itself from its start on; of an empty line there is only the newline, which is not
traced.
-/

set_option autoImplicit false

namespace SourceWeave

theorem Position.lineStart_lt_behind {characters line : List Char} {index : Nat}
    (isLine : (characters.splitOn '\n')[index]? = some line) (filled : line ≠ [])
    (place : Position) :
    (if index = 0 then place else ⟨place.line + index, 0⟩) < place.behind characters := by
  induction characters generalizing index line place with
  | nil =>
      rw [List.splitOn_nil] at isLine
      cases index with
      | zero => exact absurd (Option.some.inj isLine).symm filled
      | succ index => cases isLine
  | cons character rest ih =>
      rw [List.splitOn_cons_eq_if_modifyHead] at isLine
      by_cases newline : character = '\n'
      · rw [if_pos (beq_iff_eq.mpr newline)] at isLine
        cases index with
        | zero => exact absurd (Option.some.inj isLine).symm filled
        | succ index =>
            have later := ih isLine filled (place.next character)
            rw [behind_cons, if_neg (Nat.succ_ne_zero index)]
            rw [next, if_pos newline] at later ⊢
            cases index with
            | zero => exact later
            | succ index =>
                rw [if_neg (Nat.succ_ne_zero index)] at later
                simp only at later
                rwa [Nat.add_assoc, Nat.add_comm 1] at later
      · rw [if_neg (by simpa using newline)] at isLine
        cases index with
        | zero => exact lt_behind place (List.cons_ne_nil _ _)
        | succ index =>
            rw [List.getElem?_modifyHead_succ] at isLine
            have later := ih isLine filled (place.next character)
            rw [behind_cons, if_neg (Nat.succ_ne_zero index)]
            rw [next, if_neg newline] at later ⊢
            exact later

private theorem exists_filled_head (characters : List Char) (first : Char) :
    ∃ line, ((characters.splitOn '\n').modifyHead (List.cons first))[0]? = some line ∧
      line ≠ [] := by
  rw [List.getElem?_modifyHead_zero]
  cases lines : characters.splitOn '\n' with
  | nil => exact absurd lines (List.splitOn_ne_nil _ _)
  | cons line others => exact ⟨_, rfl, List.cons_ne_nil _ _⟩

/-- A character belongs to a line that is not empty, unless it is a newline at the start
of its line. The first line may go on with what stands in front of it. -/
theorem Position.filled_iff (lead : List Char) (character : Char) (rest : List Char)
    (place : Position) :
    ((place.behind lead).line = place.line ∧ place.column ≠ 0 ∨
        ∃ line, ((lead ++ character :: rest).splitOn '\n')[(place.behind lead).line - place.line]? =
          some line ∧ line ≠ []) ↔
      ¬ (character = '\n' ∧ (place.behind lead).column = 0) := by
  induction lead generalizing place with
  | nil =>
      rw [List.nil_append, behind_nil, Nat.sub_self, List.splitOn_cons_eq_if_modifyHead]
      by_cases newline : character = '\n'
      · rw [if_pos (beq_iff_eq.mpr newline)]
        simp [newline]
      · rw [if_neg (by simpa using newline)]
        exact iff_of_true (Or.inr (exists_filled_head rest character))
          fun emptyLine => newline emptyLine.1
  | cons first lead ih =>
      rw [List.cons_append, behind_cons, ← ih (place.next first),
        List.splitOn_cons_eq_if_modifyHead]
      have further := le_behind (place.next first) lead
      rw [le_iff] at further
      by_cases newline : first = '\n'
      · rw [if_pos (beq_iff_eq.mpr newline)]
        rw [next, if_pos newline] at further ⊢
        generalize (Position.mk (place.line + 1) 0).behind lead = last at further ⊢
        simp only at further
        have index : last.line - place.line = last.line - (place.line + 1) + 1 := by omega
        have notFirst : last.line ≠ place.line := by omega
        rw [index, List.getElem?_cons_succ]
        simp [notFirst]
      · rw [if_neg (by simpa using newline)]
        have wide := Utf16.width_pos first
        rw [next, if_neg newline] at further ⊢
        generalize (Position.mk place.line (place.column + Utf16.width first)).behind lead =
          last at further ⊢
        simp only at further ⊢
        by_cases onFirst : last.line = place.line
        · rw [onFirst, Nat.sub_self]
          exact iff_of_true (Or.inr (exists_filled_head _ first)) (Or.inl ⟨rfl, by omega⟩)
        · -- A later line is the same line of what follows the first character.
          obtain ⟨index, isIndex⟩ : ∃ index, last.line - place.line = index + 1 :=
            ⟨last.line - place.line - 1, by omega⟩
          rw [isIndex, List.getElem?_modifyHead_succ]
          simp [onFirst]

def lineFilled (characters : List Char) (line : Nat) : Bool :=
  ((characters.splitOn '\n')[line - 1]?).any fun content => !content.isEmpty

theorem lineFilled_iff {characters : List Char} {line : Nat} :
    lineFilled characters line = true ↔
      ∃ content, (characters.splitOn '\n')[line - 1]? = some content ∧ content ≠ [] := by
  rw [lineFilled]
  cases (characters.splitOn '\n')[line - 1]? <;> simp

theorem lineFilled_behind (lead : List Char) (character : Char) (rest : List Char) :
    lineFilled (lead ++ character :: rest) (Position.first.behind lead).line = true ↔
      ¬ (character = '\n' ∧ (Position.first.behind lead).column = 0) := by
  rw [lineFilled_iff, ← Position.filled_iff lead character rest Position.first]
  simp only [Position.first_line, Position.first_column, ne_eq, not_true_eq_false, and_false,
    false_or]

/-! ### Segments -/

theorem mem_authoredSegments {text : String} {segment : Segment} :
    segment ∈ authoredSegments text ↔
      ∃ index line, (text.toList.splitOn '\n')[index]? = some line ∧ line ≠ [] ∧
        segment = Segment.traced ⟨index + 1, 0⟩ 0 (index + 1) 0 := by
  rw [authoredSegments, List.mem_filterMap]
  constructor
  · intro kept
    obtain ⟨⟨line, index⟩, member, isSegment⟩ := kept
    rw [List.mk_mem_zipIdx_iff_getElem?] at member
    simp only at isSegment
    split at isSegment
    · cases isSegment
    · rename_i filled
      refine ⟨index, line, member, ?_, (Option.some.inj isSegment).symm⟩
      intro empty
      exact filled (List.isEmpty_iff.mpr empty)
  · intro told
    obtain ⟨index, line, isLine, filled, isSegment⟩ := told
    refine ⟨(line, index), List.mk_mem_zipIdx_iff_getElem?.mpr isLine, ?_⟩
    rw [isSegment]
    exact if_neg fun empty => filled (List.isEmpty_iff.mp empty)

theorem authoredSegments_ordered (text : String) : Segment.Ordered (authoredSegments text) := by
  have indexed : (text.toList.splitOn '\n').zipIdx.Pairwise fun earlier later =>
      earlier.2 < later.2 := by
    apply List.pairwise_map.mp
    rw [List.zipIdx_map_snd]
    exact List.pairwise_lt_range'
  refine List.Pairwise.filterMap _ ?_ indexed
  intro front back inOrder first isFirst second isSecond
  obtain ⟨line, index⟩ := front
  obtain ⟨other, later⟩ := back
  simp only at inOrder isFirst isSecond
  split at isFirst
  · cases isFirst
  · split at isSecond
    · cases isSecond
    · cases isFirst
      cases isSecond
      exact Or.inl (Nat.succ_lt_succ inOrder)

theorem authoredSegments_numbered (text : String) :
    Segment.Numbered (authoredSegments text) := by
  intro segment member
  obtain ⟨index, _, _, _, isSegment⟩ := mem_authoredSegments.mp member
  rw [isSegment]
  exact Nat.succ_ne_zero index

theorem lastCovering_authoredSegments (text : String) {place : Position}
    (numbered : place.line ≠ 0) :
    Segment.lastCovering place (authoredSegments text) =
      if lineFilled text.toList place.line then some (Segment.traced ⟨place.line, 0⟩ 0 place.line 0)
      else none := by
  have lineNumber : place.line - 1 + 1 = place.line := by omega
  split
  · rename_i filled
    obtain ⟨line, isLine, isFilled⟩ := lineFilled_iff.mp filled
    apply (authoredSegments_ordered text).lastCovering_eq_some_iff.mpr
    refine ⟨mem_authoredSegments.mpr ⟨place.line - 1, line, isLine, isFilled, ?_⟩,
      Segment.covers_iff.mpr ⟨rfl, Nat.zero_le _⟩, ?_⟩
    · rw [lineNumber]
    · intro other member covered
      obtain ⟨index, _, _, _, isOther⟩ := mem_authoredSegments.mp member
      have sameLine := (Segment.covers_iff.mp covered).1
      rw [isOther] at sameLine ⊢
      exact Or.inr ⟨sameLine, Nat.le_refl 0⟩
  · rename_i empty
    apply Segment.lastCovering_eq_none
    intro segment member
    obtain ⟨index, line, isLine, isFilled, isSegment⟩ := mem_authoredSegments.mp member
    cases covered : Segment.covers place segment with
    | false => rfl
    | true =>
        have sameLine := (Segment.covers_iff.mp covered).1
        rw [isSegment] at sameLine
        have isIndex : place.line - 1 = index := by
          rw [← sameLine]
          rfl
        exact absurd (lineFilled_iff.mpr ⟨line, isIndex ▸ isLine, isFilled⟩) empty

theorem exists_authoredMapping (text identity : String) :
    ∃ mapping, authoredMapping text identity = .ok mapping :=
  Mapping.exists_ofSegments (authoredSegments_ordered text) (authoredSegments_numbered text) _ _

section Authored

variable {text identity : String} {mapping : Mapping}

theorem authoredMapping_tidy (made : authoredMapping text identity = .ok mapping) :
    Segment.Tidy mapping.sources.size mapping.names.size (Position.first.behind text.toList)
      mapping.segments.toList := by
  obtain ⟨sameSegments, sameSources, sameNames, _, _⟩ := Mapping.ofSegments_eq_ok made
  have noMarkers (covered : Option Nat) (segments : List Segment)
      (traced : ∀ segment ∈ segments, segment.isMarker = false) :
      Segment.Pruned covered segments := by
    induction segments generalizing covered with
    | nil => trivial
    | cons segment rest ih =>
        refine ⟨fun marker => ?_,
          ih _ fun other member => traced other (List.mem_cons_of_mem segment member)⟩
        rw [traced segment List.mem_cons_self] at marker
        cases marker
  rw [sameSources, sameNames, sameSegments]
  exact
    { ordered := authoredSegments_ordered text
      pruned := by
        apply noMarkers
        intro segment member
        obtain ⟨_, _, _, _, isSegment⟩ := mem_authoredSegments.mp member
        rw [isSegment]
        rfl
      inTables := by
        intro segment member location isLocation
        obtain ⟨_, _, _, _, isSegment⟩ := mem_authoredSegments.mp member
        rw [isSegment] at isLocation
        cases isLocation
        exact ⟨Nat.zero_lt_one, fun name impossible => by cases impossible⟩
      inside := by
        intro segment member
        obtain ⟨index, line, isLine, filled, isSegment⟩ := mem_authoredSegments.mp member
        have before := Position.lineStart_lt_behind isLine filled Position.first
        rw [isSegment]
        cases index with
        | zero => exact before
        | succ index =>
            rw [if_neg (Nat.succ_ne_zero index), Position.first_line, Nat.add_comm 1] at before
            exact before }

/-- A place is traced to itself, unless its line is empty. -/
theorem authoredMapping_reading? (made : authoredMapping text identity = .ok mapping)
    {place : Position} (numbered : place.line ≠ 0) :
    mapping.reading? place =
      if lineFilled text.toList place.line then
        some
          { trace := ⟨some identity, place.line, place.column⟩
            standing := if place.column = 0 then some none else none }
      else none := by
  obtain ⟨sameSegments, sameSources, _, _, _⟩ := Mapping.ofSegments_eq_ok made
  rw [Mapping.reading?, Segment.reading?, sameSegments,
    lastCovering_authoredSegments text numbered, sameSources]
  split
  · have here : (⟨place.line, 0⟩ : Position) = place ↔ place.column = 0 :=
      ⟨fun same => by rw [← same], fun first => Position.ext rfl first.symm⟩
    rw [Option.bind_some]
    apply (Segment.read_eq_some_iff _ _).mpr
    refine ⟨_, _, rfl, rfl, ?_⟩
    simp only [Segment.traced, here, Nat.zero_add, Nat.sub_zero, Option.bind_none]
    rfl
  · rfl

theorem told_authored (made : authoredMapping text identity = .ok mapping) {lead rest : List Char}
    {character : Char} (whole : text.toList = lead ++ character :: rest) :
    TracedChar.told character (mapping.reading? (Position.first.behind lead)) =
      if character = '\n' ∧ (Position.first.behind lead).column = 0 then
        TracedChar.silent character
      else
        ⟨character, some ⟨some identity, (Position.first.behind lead).line,
          (Position.first.behind lead).column⟩, none⟩ := by
  have filled := lineFilled_behind lead character rest
  rw [← whole] at filled
  rw [authoredMapping_reading? made (Position.behind_line_ne_zero lead)]
  by_cases emptyLine : character = '\n' ∧ (Position.first.behind lead).column = 0
  · rw [if_pos emptyLine, if_neg fun isFilled => filled.mp isFilled emptyLine]
    rfl
  · rw [if_neg emptyLine, if_pos (filled.mpr emptyLine)]
    by_cases first : (Position.first.behind lead).column = 0 <;> simp [TracedChar.told, first]

end Authored

end SourceWeave
