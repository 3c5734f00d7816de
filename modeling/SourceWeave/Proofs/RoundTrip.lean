import SourceWeave.Mappings
import SourceWeave.Proofs.Building
import SourceWeave.Proofs.Language

/-!
Segments written as a mappings text are read back. Writer and reader keep the same
running totals: what a segment adds to the text is read as that segment, from the
totals before it, and leaves the totals behind it.
-/

set_option autoImplicit false

namespace SourceWeave

structure Segment.Bounded (segment : Segment) : Prop where
  line : segment.position.line ≤ Vlq.limit
  column : segment.position.column ≤ Vlq.limit
  origin : ∀ location ∈ segment.origin,
    location.source ≤ Vlq.limit ∧ location.line ≤ Vlq.limit ∧ location.column ≤ Vlq.limit ∧
      ∀ name ∈ location.name, name ≤ Vlq.limit

instance (segment : Segment) : Decidable segment.Bounded :=
  decidable_of_iff
    (segment.position.line ≤ Vlq.limit ∧ segment.position.column ≤ Vlq.limit ∧
      ∀ location ∈ segment.origin,
        location.source ≤ Vlq.limit ∧ location.line ≤ Vlq.limit ∧
          location.column ≤ Vlq.limit ∧ ∀ name ∈ location.name, name ≤ Vlq.limit)
    ⟨fun fits => ⟨fits.1, fits.2.1, fits.2.2⟩, fun fits => ⟨fits.line, fits.column, fits.origin⟩⟩

namespace Mappings

/-- Totals that a segment can have left. Source lines are counted from zero here, so that
the line zero of a source is one in front of them. -/
structure Totals.Bounded (totals : Totals) : Prop where
  column : 0 ≤ totals.column ∧ totals.column ≤ Vlq.limit
  source : 0 ≤ totals.source ∧ totals.source ≤ Vlq.limit
  sourceLine : -1 ≤ totals.sourceLine ∧ totals.sourceLine < Vlq.limit
  sourceColumn : 0 ≤ totals.sourceColumn ∧ totals.sourceColumn ≤ Vlq.limit
  name : 0 ≤ totals.name ∧ totals.name ≤ Vlq.limit

theorem Totals.bounded_initial : Totals.Bounded {} := by
  constructor <;> decide

theorem Totals.Bounded.startLine {totals : Totals} (bounded : totals.Bounded) :
    totals.startLine.Bounded :=
  { bounded with column := ⟨Int.le_refl 0, Int.natCast_nonneg _⟩ }

theorem Totals.Bounded.moveTo {totals : Totals} (bounded : totals.Bounded) {segment : Segment}
    (fits : segment.Bounded) : (Totals.moveTo totals segment).Bounded := by
  have column : (0 : Int) ≤ segment.position.column ∧
      (segment.position.column : Int) ≤ Vlq.limit := by
    have columnFits := fits.column
    omega
  unfold Totals.moveTo
  cases isOrigin : segment.origin with
  | none => exact { bounded with column }
  | some location =>
      obtain ⟨sourceFits, lineFits, columnFits, nameFits⟩ := fits.origin location isOrigin
      have name : (0 : Int) ≤ (location.name.map Int.ofNat).getD totals.name ∧
          (location.name.map Int.ofNat).getD totals.name ≤ Vlq.limit := by
        cases isName : location.name with
        | none => exact bounded.name
        | some name =>
            have within := nameFits name isName
            simp only [Option.map_some, Option.getD_some, Int.ofNat_eq_natCast]
            omega
      exact
        { column
          source := by simp only; omega
          sourceLine := by simp only; omega
          sourceColumn := by simp only; omega
          name }

theorem Totals.Bounded.deltas {totals : Totals} (bounded : totals.Bounded) {segment : Segment}
    (fits : segment.Bounded) : ∀ delta ∈ totals.deltas segment, delta.natAbs ≤ Vlq.limit := by
  obtain ⟨column, source, sourceLine, sourceColumn, name⟩ := bounded
  have columnFits := fits.column
  have originFits := fits.origin
  unfold Totals.deltas
  cases isOrigin : segment.origin with
  | none =>
      simp only [List.mem_singleton, forall_eq]
      omega
  | some location =>
      obtain ⟨sourceFits, lineFits, sourceColumnFits, nameFits⟩ := originFits location isOrigin
      cases isName : location.name with
      | none =>
          simp only [List.mem_cons, List.not_mem_nil, or_false, forall_eq_or_imp, forall_eq,
            isName]
          omega
      | some index =>
          have nameWithin := nameFits index isName
          simp only [List.mem_cons, List.not_mem_nil, or_false, forall_eq_or_imp, forall_eq,
            isName]
          omega

/-! ### One segment -/

theorem inRange_eq_ok (total : Total) {natural : Nat} {value : Int} (fits : natural ≤ Vlq.limit)
    (same : value = natural) : inRange total value = .ok natural :=
  inRange_eq_ok_iff.mpr ⟨⟨by omega, by omega⟩, by omega⟩

theorem advanceColumn_eq_ok (line : Nat) {started : Bool} {totals : Totals} {column : Nat}
    (fits : column ≤ Vlq.limit) (further : started = true → totals.column < column) :
    totals.advanceColumn line started (column - totals.column) =
      .ok (column, { totals with column }) := by
  rw [advanceColumn_eq_ok_iff, add_sub_cancel]
  exact ⟨⟨by omega, by omega⟩, further, rfl, rfl⟩

theorem advanceOrigin_eq_ok (totals : Totals) {location : Location}
    (sourceFits : location.source ≤ Vlq.limit) (lineFits : location.line ≤ Vlq.limit)
    (columnFits : location.column ≤ Vlq.limit)
    (nameFits : ∀ name ∈ location.name, name ≤ Vlq.limit) :
    totals.advanceOrigin (location.source - totals.source)
        (location.line - 1 - totals.sourceLine) (location.column - totals.sourceColumn)
        (location.name.map fun name : Nat => (name : Int) - totals.name) =
      .ok (location,
        { totals with
          source := location.source
          sourceLine := location.line - 1
          sourceColumn := location.column
          name := (location.name.map Int.ofNat).getD totals.name }) := by
  have inRange {natural : Nat} (fits : natural ≤ Vlq.limit) : InRange natural :=
    ⟨Int.natCast_nonneg natural, Int.ofNat_le.mpr fits⟩
  rw [advanceOrigin_eq_ok_iff, add_sub_cancel, add_sub_cancel, add_sub_cancel, sub_add_cancel]
  refine ⟨?_, inRange sourceFits, inRange lineFits, inRange columnFits, ?_, ?_⟩
  · intro delta isDelta
    obtain ⟨name, isName, same⟩ := Option.map_eq_some_iff.mp isDelta
    rw [← same, add_sub_cancel]
    exact inRange (nameFits name isName)
  · cases location with
    | mk source line column name => cases name <;> simp
  · cases location with
    | mk source line column name => cases name <;> simp

theorem decodeSegment_encodeAll {line : Nat} {started : Bool} {totals : Totals}
    {segment : Segment} (bounded : totals.Bounded) (fits : segment.Bounded)
    (onLine : segment.position.line = line)
    (further : started = true → totals.column < segment.position.column) :
    decodeSegment line started totals
        (String.ofList (Vlq.encodeAll (totals.deltas segment))) =
      .ok (segment, totals.moveTo segment) := by
  have read := Vlq.decode_encodeAll (bounded.deltas fits)
  have advanced := advanceColumn_eq_ok line fits.column further
  rw [decodeSegment, read]
  cases segment with
  | mk position origin =>
      cases position with
      | mk segmentLine column =>
          simp only at onLine
          subst onLine
          cases origin with
          | none =>
              change totals.advanceColumn _ started _ >>= _ = _
              rw [advanced]
              rfl
          | some location =>
              obtain ⟨sourceFits, lineFits, columnFits, nameFits⟩ := fits.origin location rfl
              have told := advanceOrigin_eq_ok { totals with column } sourceFits lineFits
                columnFits nameFits
              cases location with
              | mk source sourceLine sourceColumn name =>
                  cases name
                  all_goals
                    change totals.advanceColumn _ started _ >>= _ = _
                    dsimp only [Option.map_none, Option.map_some] at advanced told ⊢
                    rw [advanced]
                    change Totals.advanceOrigin _ _ _ _ _ >>= _ = _
                    rw [told]
                    rfl

/-! ### Lines and pieces -/

def decodeRest (line : Nat) (started : Bool) (totals : Totals) (rest : List Char) :
    Except Malformation (List Segment) :=
  match rest.splitOn ';' with
  | [] => .ok []
  | written :: others => do
      let (segments, totals) ← decodeSegments line started totals (pieces written)
      return segments ++ (← decodeLines (line + 1) totals others)

theorem decode_eq_decodeRest (text : String) : decode text = decodeRest 1 false {} text.toList := by
  rw [decode, decodeRest]
  cases text.toList.splitOn ';' with
  | nil => rfl
  | cons written others => rfl

section Pieces

variable {line : Nat} {started : Bool} {totals : Totals} {rest : List Char}

theorem decodeRest_of_lines {written : List Char} {others : List (List Char)}
    (lines : rest.splitOn ';' = written :: others) :
    decodeRest line started totals rest = (do
      let (segments, totals) ← decodeSegments line started totals (pieces written)
      return segments ++ (← decodeLines (line + 1) totals others)) := by
  rw [decodeRest, lines]

private theorem exists_lines (rest : List Char) :
    ∃ written others, rest.splitOn ';' = written :: others :=
  List.exists_cons_of_ne_nil (List.splitOn_ne_nil _ _)

theorem decodeRest_semicolon (bounded : line + 1 ≤ Vlq.limit) :
    decodeRest line started totals (';' :: rest) =
      decodeRest (line + 1) false totals.startLine rest := by
  obtain ⟨written, others, lines⟩ := exists_lines rest
  have split : (';' :: rest).splitOn ';' = [] :: written :: others := by
    rw [List.splitOn_cons_eq_if_modifyHead, if_pos (beq_self_eq_true _), lines]
  have noPieces : pieces [] = [] := by simp [pieces]
  have numbered : inRange .generatedLine (line + 1 : Nat) = .ok (line + 1) :=
    inRange_eq_ok _ bounded rfl
  have further : decodeLines (line + 1) totals (written :: others) =
      decodeRest (line + 1) false totals.startLine rest := by
    unfold decodeLines
    rw [numbered, decodeRest_of_lines lines]
    rfl
  rw [decodeRest_of_lines split, ← further, noPieces, decodeSegments, ok_bind]
  exact bind_pure _

theorem decodeRest_semicolons {skipped : Nat} (some : skipped ≠ 0)
    (bounded : line + skipped ≤ Vlq.limit) :
    decodeRest line started totals (List.replicate skipped ';' ++ rest) =
      decodeRest (line + skipped) false totals.startLine rest := by
  induction skipped generalizing line started totals with
  | zero => exact absurd rfl some
  | succ fewer ih =>
      rw [List.replicate_succ, List.cons_append, decodeRest_semicolon (by omega)]
      by_cases last : fewer = 0
      · rw [last]
        rfl
      · rw [ih last (by omega), Totals.startLine_startLine, Nat.add_assoc, Nat.add_comm 1]

theorem decodeRest_comma :
    decodeRest line started totals (',' :: rest) = decodeRest line started totals rest := by
  obtain ⟨written, others, lines⟩ := exists_lines rest
  have split : (',' :: rest).splitOn ';' = (',' :: written) :: others := by
    rw [List.splitOn_cons_eq_if_modifyHead, if_neg (by decide), lines, List.modifyHead_cons]
  have samePieces : pieces (',' :: written) = pieces written := by
    rw [pieces, List.splitOn_cons_eq_if_modifyHead, if_pos (beq_self_eq_true _), pieces]
    rfl
  rw [decodeRest_of_lines split, decodeRest_of_lines lines, samePieces]

private theorem splitOn_append {separator : Char} {written : List Char}
    (absent : separator ∉ written) (rest : List Char) :
    (written ++ rest).splitOn separator =
      (rest.splitOn separator).modifyHead (written ++ ·) := by
  induction written with
  | nil =>
      rw [List.nil_append]
      exact (congrFun List.modifyHead_id _).symm
  | cons character others ih =>
      have different : ¬ (character == separator) = true := by
        intro same
        exact absent (eq_of_beq same ▸ List.mem_cons_self)
      rw [List.cons_append, List.splitOn_cons_eq_if_modifyHead, if_neg different,
        ih fun member => absent (List.mem_cons_of_mem character member), List.modifyHead_modifyHead]
      rfl

theorem decodeRest_append {written : List Char} (some : written ≠ [])
    (noComma : ',' ∉ written) (noSemicolon : ';' ∉ written)
    (separated : rest = [] ∨ ∃ separator others, rest = separator :: others ∧
      (separator = ',' ∨ separator = ';')) :
    decodeRest line started totals (written ++ rest) = (do
      let (segment, totals) ← decodeSegment line started totals (String.ofList written)
      return segment :: (← decodeRest line true totals rest)) := by
  obtain ⟨first, others, lines⟩ := exists_lines rest
  have split : (written ++ rest).splitOn ';' = (written ++ first) :: others := by
    rw [splitOn_append noSemicolon, lines, List.modifyHead_cons]
  have firstPiece : pieces (written ++ first) = String.ofList written :: pieces first := by
    have bounded : first = [] ∨ ∃ further, first = ',' :: further := by
      rcases separated with atEnd | ⟨separator, further, whole, isComma | isSemicolon⟩
      · rw [atEnd, List.splitOn_nil] at lines
        exact Or.inl (List.cons.inj lines).1.symm
      · rw [whole, isComma, List.splitOn_cons_eq_if_modifyHead, if_neg (by decide)] at lines
        obtain ⟨head, tail, isSplit⟩ := exists_lines further
        rw [isSplit, List.modifyHead_cons] at lines
        exact Or.inr ⟨head, (List.cons.inj lines).1.symm⟩
      · rw [whole, isSemicolon, List.splitOn_cons_eq_if_modifyHead,
          if_pos (beq_self_eq_true _)] at lines
        exact Or.inl (List.cons.inj lines).1.symm
    have kept : written.isEmpty = false := by
      cases written with
      | nil => exact absurd rfl some
      | cons character others => rfl
    rw [pieces, splitOn_append noComma, pieces]
    rcases bounded with atEnd | ⟨further, whole⟩
    · simp [atEnd, kept]
    · rw [whole, List.splitOn_cons_eq_if_modifyHead, if_pos (beq_self_eq_true _)]
      simp [kept]
  rw [decodeRest_of_lines split, firstPiece, decodeSegments]
  cases decodeSegment line started totals (String.ofList written) with
  | error cause => rfl
  | ok decoded =>
      obtain ⟨segment, moved⟩ := decoded
      simp only [ok_bind, bind_assoc, decodeRest_of_lines lines, pure_bind, List.cons_append]

end Pieces

private theorem deltas_written (totals : Totals) (segment : Segment) :
    Vlq.encodeAll (totals.deltas segment) ≠ [] ∧
      ',' ∉ Vlq.encodeAll (totals.deltas segment) ∧
        ';' ∉ Vlq.encodeAll (totals.deltas segment) := by
  refine ⟨?_, ?_, ?_⟩
  · rw [Totals.deltas, Vlq.encodeAll, List.flatMap_cons]
    exact List.append_ne_nil_of_left_ne_nil (Vlq.encode_ne_nil _) _
  · intro member
    obtain ⟨value, isDigit⟩ := Vlq.digitValue?_of_mem_encodeAll member
    have noDigit : Vlq.digitValue? ',' = none := by decide
    rw [noDigit] at isDigit
    cases isDigit
  · intro member
    obtain ⟨value, isDigit⟩ := Vlq.digitValue?_of_mem_encodeAll member
    have noDigit : Vlq.digitValue? ';' = none := by decide
    rw [noDigit] at isDigit
    cases isDigit

private theorem encodeFrom_separated (line : Nat) (totals : Totals) (segments : List Segment) :
    encodeFrom line true totals segments = [] ∨
      ∃ separator others, encodeFrom line true totals segments = separator :: others ∧
        (separator = ',' ∨ separator = ';') := by
  cases segments with
  | nil => exact Or.inl rfl
  | cons segment rest =>
      right
      rw [encodeFrom]
      cases segment.position.line - line with
      | zero => exact ⟨',', _, rfl, Or.inl rfl⟩
      | succ skipped => exact ⟨';', _, rfl, Or.inr rfl⟩

/-- What is written from some totals on is read from the same totals on. -/
theorem decodeRest_encodeFrom {line : Nat} {started : Bool} {totals : Totals}
    {segments : List Segment} (ordered : Segment.Ordered segments)
    (fit : ∀ segment ∈ segments, segment.Bounded) (bounded : totals.Bounded)
    (behind : ∀ segment ∈ segments, line ≤ segment.position.line ∧
      (started = true → segment.position.line = line →
        totals.column < segment.position.column)) :
    decodeRest line started totals (encodeFrom line started totals segments) = .ok segments := by
  induction segments generalizing line started totals with
  | nil => rfl
  | cons segment rest ih =>
      obtain ⟨first, tail⟩ := List.pairwise_cons.mp ordered
      have fits := fit segment List.mem_cons_self
      obtain ⟨fromLine, further⟩ := behind segment List.mem_cons_self
      have onLine {started : Bool} {totals : Totals} (bounded : totals.Bounded)
          (further : started = true → totals.column < segment.position.column) :
          decodeRest segment.position.line started totals
              (Vlq.encodeAll (totals.deltas segment) ++
                encodeFrom segment.position.line true (totals.moveTo segment) rest) =
            .ok (segment :: rest) := by
        have moved : (totals.moveTo segment).column = segment.position.column := by
          unfold Totals.moveTo
          cases segment.origin <;> rfl
        obtain ⟨some, noComma, noSemicolon⟩ := deltas_written totals segment
        rw [decodeRest_append some noComma noSemicolon (encodeFrom_separated _ _ _),
          decodeSegment_encodeAll bounded fits rfl further, ok_bind]
        simp only
        rw [ih tail (fun other member => fit other (List.mem_cons_of_mem segment member))
          (bounded.moveTo fits)]
        · rfl
        · intro other member
          have after := first other member
          rw [Position.lt_iff] at after
          rw [moved]
          omega
      rw [encodeFrom]
      by_cases sameLine : segment.position.line - line = 0
      · have isLine : segment.position.line = line := by omega
        rw [isLine] at onLine
        simp only [sameLine, if_true, List.replicate_zero, List.nil_append, Nat.add_zero, and_true]
        cases started with
        | false => exact onLine bounded fun impossible => by cases impossible
        | true =>
            rw [if_pos rfl, List.append_assoc, List.singleton_append, decodeRest_comma]
            exact onLine bounded fun isStarted => further isStarted isLine
      · have reached : line + (segment.position.line - line) = segment.position.line := by omega
        simp only [sameLine, if_false, and_false, List.append_nil, List.append_assoc]
        rw [decodeRest_semicolons sameLine (by rw [reached]; exact fits.line), reached]
        exact onLine bounded.startLine fun impossible => by cases impossible

/-- Segments in order, whose numbers fit into thirty-two bits, are read as they were written. -/
theorem decode_encode {segments : List Segment} (ordered : Segment.Ordered segments)
    (numbered : Segment.Numbered segments) (fit : ∀ segment ∈ segments, segment.Bounded) :
    decode (encode segments) = .ok segments := by
  rw [decode_eq_decodeRest, encode, String.toList_ofList]
  apply decodeRest_encodeFrom ordered fit Totals.bounded_initial
  intro segment member
  refine ⟨Nat.one_le_iff_ne_zero.mpr (numbered segment member), ?_⟩
  intro impossible
  cases impossible

theorem decode_encode_extremes :
    let segments : List Segment :=
      [⟨⟨1, 0⟩, some ⟨0xFFFFFFFF, 0, 0xFFFFFFFF, some 0xFFFFFFFF⟩⟩, ⟨⟨1, 0xFFFFFFFF⟩, none⟩,
        ⟨⟨3, 7⟩, some ⟨0, 0xFFFFFFFF, 0, none⟩⟩, ⟨⟨3, 8⟩, some ⟨1, 0, 5, some 0⟩⟩]
    decode (encode segments) = .ok segments := by
  intro segments
  have ordered : Segment.Ordered segments :=
    Segment.ordered_of_firstDisorder?_eq_none segments (by decide)
  have numbered : ∀ segment ∈ segments, segment.position.line ≠ 0 := by decide
  have fit : ∀ segment ∈ segments, segment.Bounded := by decide
  exact decode_encode ordered numbered fit

end Mappings

end SourceWeave
