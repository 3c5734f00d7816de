import Mathlib.Tactic.MkIffOfInductiveProp
import SourceWeave.Mappings
import SourceWeave.Proofs.Groups

/-!
The language of mappings texts. What a text says are the sums of the numbers that it spells: of
the first field from the start of the line, of every other field from the start of the text, over
the pieces that have the field. A text is read exactly if these sums stay in range and the first
one increases along every line, and what is read are the sums. Source lines are checked as they
are held, counted from one, so that a sum of one below zero is read as well.
-/

set_option autoImplicit false

namespace SourceWeave

namespace Mappings

/-- The numbers of a text, line by line and piece by piece. Semicolons stand between lines and
commas between pieces, of which empty ones do not count. -/
def Spells (text : String) (lines : List (List (List Int))) : Prop :=
  List.Forall₂
    (fun line pieces =>
      List.Forall₂ Vlq.Spells ((line.splitOn ',').filter fun piece => piece ≠ []) pieces)
    (text.toList.splitOn ';') lines

/-- The sum of a field over the pieces that have it. -/
def fieldSum (field : Nat) (pieces : List (List Int)) : Int :=
  (pieces.filterMap fun piece => piece[field]?).sum

/-- The sums over the pieces `before` on one line, behind the pieces `above` on earlier lines. -/
def Totals.summed (above before : List (List Int)) : Totals where
  column := fieldSum 0 before
  source := fieldSum 1 (above ++ before)
  sourceLine := fieldSum 2 (above ++ before)
  sourceColumn := fieldSum 3 (above ++ before)
  name := fieldSum 4 (above ++ before)

/-- The numbers of a piece, the line that it stands on and the pieces in front of it: those of
earlier lines and those of its own line. -/
structure Standing where
  line : Nat
  above : List (List Int)
  before : List (List Int)
  values : List Int

namespace Standing

def totals (piece : Standing) : Totals :=
  Totals.summed piece.above (piece.before ++ [piece.values])

def isTraced (piece : Standing) : Bool :=
  decide (4 ≤ piece.values.length)

def isNamed (piece : Standing) : Bool :=
  decide (5 ≤ piece.values.length)

/-- The segment that says the sums up to the piece. Source lines are spelled from zero. -/
def segment (piece : Standing) : Segment where
  position := ⟨piece.line, piece.totals.column.toNat⟩
  origin :=
    if piece.isTraced then
      some
        { source := piece.totals.source.toNat
          line := (piece.totals.sourceLine + 1).toNat
          column := piece.totals.sourceColumn.toNat
          name := if piece.isNamed then some piece.totals.name.toNat else none }
    else none

end Standing

def InRange (value : Int) : Prop :=
  0 ≤ value ∧ value ≤ Vlq.limit

@[mk_iff]
structure Standing.Admissible (piece : Standing) : Prop where
  fieldCount : piece.values.length = 1 ∨ piece.values.length = 4 ∨ piece.values.length = 5
  column : InRange piece.totals.column
  increasing : piece.before ≠ [] → fieldSum 0 piece.before < piece.totals.column
  source : piece.isTraced → InRange piece.totals.source
  sourceLine : piece.isTraced → InRange (piece.totals.sourceLine + 1)
  sourceColumn : piece.isTraced → InRange piece.totals.sourceColumn
  name : piece.isNamed → InRange piece.totals.name

def lineStandings (line : Nat) (above before : List (List Int)) :
    List (List Int) → List Standing
  | [] => []
  | values :: rest =>
      ⟨line, above, before, values⟩ :: lineStandings line above (before ++ [values]) rest

def standings (line : Nat) (above : List (List Int)) : List (List (List Int)) → List Standing
  | [] => []
  | pieces :: rest =>
      lineStandings line above [] pieces ++ standings (line + 1) (above ++ pieces) rest

theorem line_of_mem_lineStandings {line : Nat} {above before pieces : List (List Int)}
    {piece : Standing} (member : piece ∈ lineStandings line above before pieces) :
    piece.line = line := by
  induction pieces generalizing before with
  | nil => cases member
  | cons values rest ih =>
      rcases List.mem_cons.mp member with isFirst | inRest
      · rw [isFirst]
      · exact ih inRest

theorem line_of_mem_standings {line : Nat} {above : List (List Int)}
    {lines : List (List (List Int))} {piece : Standing}
    (member : piece ∈ standings line above lines) :
    line ≤ piece.line ∧ piece.line < line + lines.length := by
  induction lines generalizing line above with
  | nil => cases member
  | cons pieces rest ih =>
      rw [List.length_cons]
      rcases List.mem_append.mp member with onLine | below
      · rw [line_of_mem_lineStandings onLine]
        omega
      · obtain ⟨least, most⟩ := ih below
        omega

theorem fieldSum_append (field : Nat) (front back : List (List Int)) :
    fieldSum field (front ++ back) = fieldSum field front + fieldSum field back := by
  rw [fieldSum, List.filterMap_append, List.sum_append]
  rfl

theorem fieldSum_singleton (field : Nat) (values : List Int) :
    fieldSum field [values] = values[field]?.getD 0 := by
  unfold fieldSum
  cases isField : values[field]? with
  | none => simp [isField]
  | some value => simp [isField]

theorem Totals.summed_append_singleton (above before : List (List Int)) (values : List Int) :
    Totals.summed above (before ++ [values]) =
      { column := (Totals.summed above before).column + values[0]?.getD 0
        source := (Totals.summed above before).source + values[1]?.getD 0
        sourceLine := (Totals.summed above before).sourceLine + values[2]?.getD 0
        sourceColumn := (Totals.summed above before).sourceColumn + values[3]?.getD 0
        name := (Totals.summed above before).name + values[4]?.getD 0 } := by
  simp only [summed, ← List.append_assoc, fieldSum_append, fieldSum_singleton]

theorem Totals.startLine_summed (above before : List (List Int)) :
    (Totals.summed above before).startLine = Totals.summed (above ++ before) [] := by
  rw [startLine, summed, summed, List.append_nil]
  rfl

theorem Totals.startLine_startLine (totals : Totals) :
    totals.startLine.startLine = totals.startLine :=
  rfl

theorem Totals.summed_nil : Totals.summed [] [] = {} :=
  rfl

/-! ### Segments and lines -/

theorem inRange_eq_ok_iff {total : Total} {value : Int} {natural : Nat} :
    inRange total value = .ok natural ↔ InRange value ∧ natural = value.toNat := by
  unfold inRange InRange Vlq.limit
  split
  · rw [Except.ok.injEq]
    omega
  · constructor
    · intro impossible
      cases impossible
    · intro within
      omega

theorem advanceColumn_eq_ok_iff {totals moved : Totals} {line column : Nat} {started : Bool}
    {delta : Int} :
    totals.advanceColumn line started delta = .ok (column, moved) ↔
      InRange (totals.column + delta) ∧
        (started = true → totals.column < totals.column + delta) ∧
          column = (totals.column + delta).toNat ∧
            moved = { totals with column := totals.column + delta } := by
  rw [Totals.advanceColumn]
  split
  · rename_i stays
    constructor
    · intro impossible
      cases impossible
    · intro advanced
      have further := advanced.2.1 stays.1
      omega
  · rename_i further
    have increasing (isStarted : started = true) : totals.column < totals.column + delta :=
      Int.lt_of_not_ge fun atMost => further ⟨isStarted, atMost⟩
    rw [bind_eq_ok_iff]
    constructor
    · intro advanced
      obtain ⟨natural, isNatural, isResult⟩ := advanced
      cases isResult
      obtain ⟨within, same⟩ := inRange_eq_ok_iff.mp isNatural
      exact ⟨within, increasing, same, rfl⟩
    · intro advanced
      obtain ⟨within, _, isColumn, isMoved⟩ := advanced
      refine ⟨_, inRange_eq_ok_iff.mpr ⟨within, rfl⟩, ?_⟩
      rw [isColumn, isMoved]
      rfl

theorem advanceOrigin_eq_ok_iff {totals moved : Totals} {source line column : Int}
    {name : Option Int} {location : Location} :
    totals.advanceOrigin source line column name = .ok (location, moved) ↔
      (∀ delta ∈ name, InRange (totals.name + delta)) ∧ InRange (totals.source + source) ∧
        InRange (totals.sourceLine + line + 1) ∧ InRange (totals.sourceColumn + column) ∧
          location =
            { source := (totals.source + source).toNat
              line := (totals.sourceLine + line + 1).toNat
              column := (totals.sourceColumn + column).toNat
              name := name.map fun delta => (totals.name + delta).toNat } ∧
          moved =
            { totals with
              source := totals.source + source
              sourceLine := totals.sourceLine + line
              sourceColumn := totals.sourceColumn + column
              name := totals.name + name.getD 0 } := by
  rw [@eq_comm _ location, @eq_comm _ moved]
  cases name with
  | none =>
      simp [Totals.advanceOrigin, bind_eq_ok_iff, inRange_eq_ok_iff, pure, Except.pure]
  | some delta =>
      simp [Totals.advanceOrigin, map_eq_pure_bind, bind_eq_ok_iff, inRange_eq_ok_iff, pure,
        Except.pure]

theorem decodeSegment_eq_ok_iff {line : Nat} {above before : List (List Int)} {started : Bool}
    (isStarted : started = true ↔ before ≠ []) {written : String} {segment : Segment}
    {moved : Totals} :
    decodeSegment line started (Totals.summed above before) written = .ok (segment, moved) ↔
      ∃ values, Vlq.Spells written.toList values ∧
        Standing.Admissible ⟨line, above, before, values⟩ ∧
          segment = Standing.segment ⟨line, above, before, values⟩ ∧
            moved = Totals.summed above (before ++ [values]) := by
  rw [decodeSegment, bind_eq_ok_iff]
  apply exists_congr
  intro values
  rw [Vlq.decode_eq_ok_iff_spells]
  apply and_congr_right
  intro _
  have sumsBefore : fieldSum 0 before = (Totals.summed above before).column := rfl
  simp only [Standing.admissible_iff, Standing.segment, Standing.isTraced, Standing.isNamed,
    Standing.totals, Totals.summed_append_singleton, sumsBefore, ← isStarted]
  generalize Totals.summed above before = totals
  rw [@eq_comm _ segment, @eq_comm _ moved]
  match values with
  | [] => simp
  | [delta] =>
      simp [bind_eq_ok_iff, advanceColumn_eq_ok_iff, pure, Except.pure, and_assoc]
  | [_, _] => simp
  | [_, _, _] => simp
  | [delta, source, sourceLine, sourceColumn] =>
      simp [bind_eq_ok_iff, advanceColumn_eq_ok_iff, advanceOrigin_eq_ok_iff, pure, Except.pure,
        and_assoc]
  | [delta, source, sourceLine, sourceColumn, name] =>
      -- The name is checked before the place, although it is written behind it.
      simp [bind_eq_ok_iff, advanceColumn_eq_ok_iff, advanceOrigin_eq_ok_iff, pure, Except.pure,
        and_assoc]
      tauto
  | _ :: _ :: _ :: _ :: _ :: _ :: _ => simp

theorem forall₂_pieces_iff {line : List Char} {numbers : List (List Int)} :
    List.Forall₂ (fun written values => Vlq.Spells written.toList values) (pieces line) numbers ↔
      List.Forall₂ Vlq.Spells ((line.splitOn ',').filter fun piece => piece ≠ []) numbers := by
  have samePieces : (line.splitOn ',').filter (fun piece => !piece.isEmpty) =
      (line.splitOn ',').filter fun piece => piece ≠ [] := by
    apply List.filter_congr
    intro piece _
    cases piece <;> rfl
  rw [pieces, List.forall₂_map_left_iff, samePieces]
  simp only [String.toList_ofList]

theorem decodeSegments_eq_ok_iff {line : Nat} {above before : List (List Int)} {started : Bool}
    (isStarted : started = true ↔ before ≠ []) {written : List String} {segments : List Segment}
    {moved : Totals} :
    decodeSegments line started (Totals.summed above before) written = .ok (segments, moved) ↔
      ∃ numbers,
        List.Forall₂ (fun written values => Vlq.Spells written.toList values) written numbers ∧
          (∀ piece ∈ lineStandings line above before numbers, piece.Admissible) ∧
            segments = (lineStandings line above before numbers).map Standing.segment ∧
              moved = Totals.summed above (before ++ numbers) := by
  induction written generalizing before started segments with
  | nil =>
      rw [decodeSegments, Except.ok.injEq, Prod.mk.injEq]
      constructor
      · intro nothing
        obtain ⟨noSegments, same⟩ := nothing
        refine ⟨[], .nil, List.forall_mem_nil _, noSegments.symm, ?_⟩
        rw [List.append_nil, same]
      · intro told
        obtain ⟨numbers, spelled, _, isSegments, isMoved⟩ := told
        cases spelled
        rw [List.append_nil] at isMoved
        exact ⟨isSegments.symm, isMoved.symm⟩
  | cons first rest ih =>
      have started (values : List Int) : true = true ↔ before ++ [values] ≠ [] := by simp
      rw [decodeSegments, bind_eq_ok_iff]
      constructor
      · intro read
        obtain ⟨⟨segment, sums⟩, isFirst, read⟩ := read
        obtain ⟨⟨others, last⟩, isRest, read⟩ := bind_eq_ok_iff.mp read
        cases read
        obtain ⟨values, spells, admissible, isSegment, isSums⟩ :=
          (decodeSegment_eq_ok_iff isStarted).mp isFirst
        rw [isSums] at isRest
        obtain ⟨numbers, spelled, allAdmissible, isOthers, isLast⟩ :=
          (ih (started values)).mp isRest
        refine ⟨values :: numbers, .cons spells spelled, ?_, ?_, ?_⟩
        · intro piece member
          rcases List.mem_cons.mp member with isPiece | inRest
          · exact isPiece ▸ admissible
          · exact allAdmissible piece inRest
        · rw [isSegment, isOthers]
          rfl
        · rw [isLast, List.append_assoc, List.singleton_append]
      · intro told
        obtain ⟨numbers, spelled, admissible, isSegments, isMoved⟩ := told
        cases spelled with
        | @cons _ values _ numbers spells spelled =>
            have isFirst := (decodeSegment_eq_ok_iff isStarted).mpr
              ⟨values, spells, admissible _ List.mem_cons_self, rfl, rfl⟩
            have isRest := (ih (started values)).mpr ⟨numbers, spelled, fun piece member =>
              admissible piece (List.mem_cons_of_mem _ member), rfl,
              by rw [isMoved, List.append_assoc, List.singleton_append]⟩
            refine ⟨_, isFirst, bind_eq_ok_iff.mpr ⟨_, isRest, ?_⟩⟩
            rw [isSegments]
            rfl

/-- Lines are read exactly if their numbers have thirty-two bits, their pieces are spelled, and
every piece can be read where it stands. -/
theorem decodeLines_eq_ok_iff {line : Nat} {above before : List (List Int)}
    (within : line ≤ Vlq.limit + 1) {written : List (List Char)} {segments : List Segment} :
    decodeLines line (Totals.summed above before) written = .ok segments ↔
      ∃ lines,
        List.Forall₂ (fun line pieces => List.Forall₂ Vlq.Spells
          ((line.splitOn ',').filter fun piece => piece ≠ []) pieces) written lines ∧
          line + lines.length ≤ Vlq.limit + 1 ∧
            (∀ piece ∈ standings line (above ++ before) lines, piece.Admissible) ∧
              segments = (standings line (above ++ before) lines).map Standing.segment := by
  have notStarted : false = true ↔ ([] : List (List Int)) ≠ [] := by simp
  induction written generalizing line above before segments with
  | nil =>
      rw [decodeLines, Except.ok.injEq]
      constructor
      · intro nothing
        exact ⟨[], .nil, within, List.forall_mem_nil _, nothing.symm⟩
      · intro told
        obtain ⟨lines, spelled, _, _, isSegments⟩ := told
        cases spelled
        exact isSegments.symm
  | cons first rest ih =>
      rw [decodeLines, bind_eq_ok_iff, Totals.startLine_summed]
      constructor
      · intro read
        obtain ⟨number, isNumber, read⟩ := read
        obtain ⟨⟨segments, sums⟩, isFirst, read⟩ := bind_eq_ok_iff.mp read
        obtain ⟨others, isRest, read⟩ := bind_eq_ok_iff.mp read
        cases read
        obtain ⟨numbered, isLine⟩ := inRange_eq_ok_iff.mp isNumber
        rw [Int.toNat_natCast] at isLine
        rw [isLine] at isFirst
        obtain ⟨pieces, spells, admissible, isSegments, isSums⟩ :=
          (decodeSegments_eq_ok_iff notStarted).mp isFirst
        rw [isSums, List.nil_append] at isRest
        obtain ⟨lines, spelled, fits, allAdmissible, isOthers⟩ :=
          (ih (by have bounded := numbered.2; omega)).mp isRest
        refine ⟨pieces :: lines, .cons (forall₂_pieces_iff.mp spells) spelled, ?_, ?_, ?_⟩
        · rw [List.length_cons]
          omega
        · intro piece member
          rcases List.mem_append.mp member with onLine | inRest
          · exact admissible piece onLine
          · exact allAdmissible piece inRest
        · rw [isSegments, isOthers, standings, List.map_append]
      · intro told
        obtain ⟨lines, spelled, fits, admissible, isSegments⟩ := told
        cases spelled with
        | @cons _ pieces _ lines spells spelled =>
            rw [List.length_cons] at fits
            have isNumber : inRange .generatedLine line = .ok (line : Int).toNat :=
              inRange_eq_ok_iff.mpr ⟨⟨Int.natCast_nonneg line, by omega⟩, rfl⟩
            have isFirst := (decodeSegments_eq_ok_iff notStarted).mpr
              ⟨pieces, forall₂_pieces_iff.mpr spells, fun piece member =>
                admissible piece (List.mem_append_left _ member), rfl, rfl⟩
            have isRest := (ih (by omega)).mpr ⟨lines, spelled, by omega, fun piece member =>
              admissible piece (List.mem_append_right _ member), rfl⟩
            refine ⟨_, isNumber, bind_eq_ok_iff.mpr ⟨_, isFirst, bind_eq_ok_iff.mpr
              ⟨_, isRest, ?_⟩⟩⟩
            rw [isSegments, standings, List.map_append]
            rfl

/-! ### Texts -/

theorem Spells.unique {text : String} {left right : List (List (List Int))}
    (spellsLeft : Spells text left) (spellsRight : Spells text right) : left = right := by
  have uniquePiece : Relator.RightUnique Vlq.Spells := fun _ _ _ => Vlq.Spells.unique
  refine List.right_unique_forall₂' ?_ spellsLeft spellsRight
  intro line left right isLeft isRight
  exact List.right_unique_forall₂' uniquePiece isLeft isRight

theorem exists_spells_of_decode {text : String} {segments : List Segment}
    (read : decode text = .ok segments) :
    ∃ lines, Spells text lines ∧ lines.length ≤ Vlq.limit ∧
      (∀ piece ∈ standings 1 [] lines, piece.Admissible) ∧
        segments = (standings 1 [] lines).map Standing.segment := by
  rw [decode, ← Totals.summed_nil, decodeLines_eq_ok_iff (by decide)] at read
  obtain ⟨lines, spelled, fits, admissible, isSegments⟩ := read
  exact ⟨lines, spelled, by omega, admissible, isSegments⟩

/-- Exactly the texts are read that spell numbers whose sums stay in range, with columns that
increase along every line, and what is read are the sums, one segment for each piece. -/
theorem decode_eq_ok_iff_admissible {text : String} {segments : List Segment} :
    decode text = .ok segments ↔
      ∃ lines, Spells text lines ∧ lines.length ≤ Vlq.limit ∧
        (∀ piece ∈ standings 1 [] lines, piece.Admissible) ∧
          segments = (standings 1 [] lines).map Standing.segment := by
  constructor
  · exact exists_spells_of_decode
  · intro told
    obtain ⟨lines, spelled, fits, admissible, isSegments⟩ := told
    rw [decode, ← Totals.summed_nil, decodeLines_eq_ok_iff (by decide)]
    exact ⟨lines, spelled, by omega, admissible, isSegments⟩

theorem Standing.segment_origin_isSome (piece : Standing) :
    piece.segment.origin.isSome = piece.isTraced := by
  rw [segment]
  cases isTraced piece <;> rfl

theorem Standing.Admissible.segment_sourceLine {piece : Standing} (admissible : piece.Admissible)
    {location : Location} (isOrigin : location ∈ piece.segment.origin) :
    (location.line : Int) = piece.totals.sourceLine + 1 := by
  rw [Standing.segment, Option.mem_def] at isOrigin
  split at isOrigin
  · rename_i traced
    cases isOrigin
    exact Int.toNat_of_nonneg (admissible.sourceLine traced).1
  · cases isOrigin

theorem Standing.Admissible.one_le_sourceLine_iff {piece : Standing}
    (admissible : piece.Admissible) :
    (∀ location ∈ piece.segment.origin, 1 ≤ location.line) ↔
      (piece.isTraced → 0 ≤ piece.totals.sourceLine) := by
  rw [← piece.segment_origin_isSome, Option.isSome_iff_exists]
  constructor
  · intro numbered traced
    obtain ⟨location, isOrigin⟩ := traced
    have line := admissible.segment_sourceLine isOrigin
    have fromOne := numbered location isOrigin
    omega
  · intro nonnegative location isOrigin
    have line := admissible.segment_sourceLine isOrigin
    have sum := nonnegative ⟨location, isOrigin⟩
    omega

/-- A traced segment has the source line that the sums say, counted from one. So its line is
zero if the sum is one below zero, while sums that are further below are refused. -/
theorem decode_sourceLine {text : String} {lines : List (List (List Int))}
    (spelled : Spells text lines) :
    ((∃ piece ∈ standings 1 [] lines, piece.isTraced ∧ piece.totals.sourceLine < -1) →
      ∃ cause, decode text = .error cause) ∧
    ∀ segments, decode text = .ok segments →
      List.Forall₂
          (fun piece segment => segment.origin.isSome = piece.isTraced ∧
            ∀ location ∈ segment.origin, (location.line : Int) = piece.totals.sourceLine + 1)
          (standings 1 [] lines) segments ∧
        ((∀ segment ∈ segments, ∀ location ∈ segment.origin, 1 ≤ location.line) ↔
          ∀ piece ∈ standings 1 [] lines, piece.isTraced → 0 ≤ piece.totals.sourceLine) := by
  have told {segments : List Segment} (read : decode text = .ok segments) :
      (∀ piece ∈ standings 1 [] lines, piece.Admissible) ∧
        segments = (standings 1 [] lines).map Standing.segment := by
    obtain ⟨others, spelledOthers, _, admissible, isSegments⟩ := exists_spells_of_decode read
    rw [spelledOthers.unique spelled] at admissible isSegments
    exact ⟨admissible, isSegments⟩
  constructor
  · intro below
    obtain ⟨piece, member, traced, isBelow⟩ := below
    cases read : decode text with
    | error cause => exact ⟨cause, rfl⟩
    | ok segments =>
        have inRange := ((told read).1 piece member).sourceLine traced
        have nonnegative := inRange.1
        omega
  · intro segments read
    obtain ⟨admissible, isSegments⟩ := told read
    constructor
    · rw [isSegments, List.forall₂_map_right_iff, List.forall₂_same]
      intro piece member
      exact ⟨piece.segment_origin_isSome, fun location isOrigin =>
        (admissible piece member).segment_sourceLine isOrigin⟩
    · rw [isSegments, List.forall_mem_map]
      apply forall₂_congr
      intro piece member
      exact (admissible piece member).one_le_sourceLine_iff

theorem decode_sourceLine_below :
    (∃ segments, Spells "AADA,CCCC" [[[0, 0, -1, 0], [1, 1, 1, 1]]] ∧
      decode "AADA,CCCC" = .ok segments ∧
        ¬ ∀ segment ∈ segments, ∀ location ∈ segment.origin, 1 ≤ location.line) ∧
      Spells "AAFA" [[[0, 0, -2, 0]]] ∧ ∃ cause, decode "AAFA" = .error cause := by
  have first : Vlq.Spells "AADA".toList [0, 0, -1, 0] :=
    (Vlq.decode_eq_ok_iff_spells "AADA").mp rfl
  have second : Vlq.Spells "CCCC".toList [1, 1, 1, 1] :=
    (Vlq.decode_eq_ok_iff_spells "CCCC").mp rfl
  have below : Vlq.Spells "AAFA".toList [0, 0, -2, 0] :=
    (Vlq.decode_eq_ok_iff_spells "AAFA").mp rfl
  have spelled : Spells "AADA,CCCC" [[[0, 0, -1, 0], [1, 1, 1, 1]]] :=
    .cons (.cons first (.cons second .nil)) .nil
  have spelledBelow : Spells "AAFA" [[[0, 0, -2, 0]]] := .cons (.cons below .nil) .nil
  have read : decode "AADA,CCCC" =
      .ok [⟨⟨1, 0⟩, some ⟨0, 0, 0, none⟩⟩, ⟨⟨1, 1⟩, some ⟨1, 1, 1, none⟩⟩] := by rfl
  refine ⟨⟨_, spelled, read, ?_⟩, spelledBelow, ?_⟩
  · rw [((decode_sourceLine spelled).2 _ read).2]
    decide
  · exact (decode_sourceLine spelledBelow).1 (by decide)

/-- The one piece of the text steps one line back from the first one, and is read. -/
theorem decode_sourceLine_zero :
    ¬ ∀ (text : String) (segments : List Segment), decode text = .ok segments →
      ∀ segment ∈ segments, ∀ location ∈ segment.origin, 1 ≤ location.line := by
  intro numbered
  have read : decode "AADA" = .ok [⟨⟨1, 0⟩, some ⟨0, 0, 0, none⟩⟩] := by rfl
  have fromOne := numbered _ _ read _ List.mem_cons_self _ rfl
  cases fromOne

end Mappings

end SourceWeave
