import SourceWeave.Proofs.Building
import SourceWeave.WireMap

/-!
Segments as they are read from a mappings text are in order and on numbered lines,
so that a map that can be read can be built.
-/

set_option autoImplicit false

namespace SourceWeave

namespace Vlq

theorem read_delivers (segment : String) (reading : Reading) (character : Char) :
    Delivers Malformation.isOfParts (fun _ => True) (reading.read segment character) := by
  rw [Reading.read]
  split
  · exact .error rfl
  · split
    · exact .error rfl
    · split
      · rw [Reading.close]
        split
        · exact .error rfl
        · exact .ok trivial
      · exact .ok trivial

theorem decode_delivers (segment : String) :
    Delivers Malformation.isOfParts (fun _ => True) (decode segment) := by
  have folded (characters : List Char) (reading : Reading) :
      Delivers Malformation.isOfParts (fun _ => True)
        (characters.foldlM (Reading.read segment) reading) := by
    induction characters generalizing reading with
    | nil => exact .ok trivial
    | cons character rest ih =>
        rw [List.foldlM_cons]
        exact (read_delivers segment reading character).bind fun next _ => ih next
  refine (folded _ _).bind ?_
  intro reading _
  split
  · exact .error rfl
  · exact .ok trivial

end Vlq

namespace Mappings

theorem inRange_delivers (total : Total) (value : Int) :
    Delivers Malformation.isOfParts (fun natural : Nat => (natural : Int) = value)
      (inRange total value) := by
  unfold inRange
  split
  · rename_i within
    exact .ok (Int.toNat_of_nonneg within.1)
  · exact .error rfl

variable (line : Nat) (started : Bool) (totals : Totals)

theorem advanceColumn_delivers (delta : Int) :
    Delivers Malformation.isOfParts
      (fun advanced : Nat × Totals => advanced.2.column = advanced.1 ∧
        (started = true → totals.column < advanced.1))
      (totals.advanceColumn line started delta) := by
  rw [Totals.advanceColumn]
  split
  · exact .error rfl
  · rename_i further
    refine (inRange_delivers _ _).bind ?_
    intro column isColumn
    refine .ok ⟨isColumn.symm, ?_⟩
    intro isStarted
    rw [isColumn]
    exact Int.lt_of_not_ge fun notFurther => further ⟨isStarted, notFurther⟩

theorem advanceOrigin_delivers (source sourceLine sourceColumn : Int) (name : Option Int) :
    Delivers Malformation.isOfParts
      (fun advanced : Location × Totals => advanced.2.column = totals.column)
      (totals.advanceOrigin source sourceLine sourceColumn name) := by
  have places (nameIndex : Option Nat) (moved : Totals)
      (sameColumn : moved.column = totals.column) :
      Delivers Malformation.isOfParts
        (fun advanced : Location × Totals => advanced.2.column = totals.column) (do
          let sourceIndex ← inRange .source moved.source
          let sourceLine ← inRange .sourceLine (moved.sourceLine + 1)
          let sourceColumn ← inRange .sourceColumn moved.sourceColumn
          return (⟨sourceIndex, sourceLine, sourceColumn, nameIndex⟩, moved)) := by
    refine (inRange_delivers _ _).bind fun sourceIndex _ => ?_
    refine (inRange_delivers _ _).bind fun sourceLine _ => ?_
    refine (inRange_delivers _ _).bind fun sourceColumn _ => ?_
    exact .ok sameColumn
  unfold Totals.advanceOrigin
  cases name with
  | none => exact places none _ rfl
  | some delta =>
      have index : Delivers Malformation.isOfParts (fun _ => True)
          (some <$> inRange .name (totals.name + delta)) :=
        (inRange_delivers _ _).map fun _ _ => trivial
      exact index.bind fun nameIndex _ => places nameIndex _ rfl

theorem decodeSegment_delivers (written : String) :
    Delivers Malformation.isOfParts
      (fun decoded : Segment × Totals => decoded.1.position.line = line ∧
        decoded.2.column = decoded.1.position.column ∧
          (started = true → totals.column < decoded.1.position.column))
      (decodeSegment line started totals written) := by
  unfold decodeSegment
  refine (Vlq.decode_delivers written).bind fun values _ => ?_
  split
  · refine (advanceColumn_delivers line started totals _).bind ?_
    intro read advanced
    obtain ⟨column, moved⟩ := read
    obtain ⟨atColumn, further⟩ := advanced
    exact .ok ⟨rfl, atColumn, further⟩
  · refine (advanceColumn_delivers line started totals _).bind ?_
    intro read advanced
    obtain ⟨column, moved⟩ := read
    obtain ⟨atColumn, further⟩ := advanced
    refine (advanceOrigin_delivers moved _ _ _ none).bind ?_
    intro told sameColumn
    obtain ⟨location, last⟩ := told
    exact .ok ⟨rfl, sameColumn.trans atColumn, further⟩
  · refine (advanceColumn_delivers line started totals _).bind ?_
    intro read advanced
    obtain ⟨column, moved⟩ := read
    obtain ⟨atColumn, further⟩ := advanced
    refine (advanceOrigin_delivers moved _ _ _ (some _)).bind ?_
    intro told sameColumn
    obtain ⟨location, last⟩ := told
    exact .ok ⟨rfl, sameColumn.trans atColumn, further⟩
  · exact .error rfl

theorem decodeSegments_delivers (written : List String) :
    Delivers Malformation.isOfParts
      (fun decoded : List Segment × Totals => Segment.Ordered decoded.1 ∧
        ∀ segment ∈ decoded.1, segment.position.line = line ∧
          (started = true → totals.column < segment.position.column))
      (decodeSegments line started totals written) := by
  induction written generalizing started totals with
  | nil =>
      refine .ok ⟨List.Pairwise.nil, ?_⟩
      intro segment impossible
      cases impossible
  | cons first rest ih =>
      unfold decodeSegments
      refine (decodeSegment_delivers line started totals first).bind ?_
      intro first advanced
      obtain ⟨segment, moved⟩ := first
      obtain ⟨onLine, atColumn, further⟩ := advanced
      refine (ih true moved).bind ?_
      intro others inOrder
      obtain ⟨segments, last⟩ := others
      obtain ⟨ordered, behind⟩ := inOrder
      simp only at onLine atColumn further behind ordered
      refine .ok ⟨?_, ?_⟩
      · refine List.pairwise_cons.mpr ⟨?_, ordered⟩
        intro later member
        obtain ⟨laterLine, laterColumn⟩ := behind later member
        have column := laterColumn trivial
        rw [Position.lt_iff]
        omega
      · intro later member
        rcases List.mem_cons.mp member with isFirst | inRest
        · rw [isFirst]
          exact ⟨onLine, further⟩
        · obtain ⟨laterLine, laterColumn⟩ := behind later inRest
          refine ⟨laterLine, fun isStarted => ?_⟩
          have column := laterColumn trivial
          have before := further isStarted
          omega

theorem decodeLines_delivers (lines : List (List Char)) :
    Delivers Malformation.isOfParts
      (fun segments : List Segment => Segment.Ordered segments ∧
        ∀ segment ∈ segments, line ≤ segment.position.line)
      (decodeLines line totals lines) := by
  induction lines generalizing line totals with
  | nil =>
      refine .ok ⟨List.Pairwise.nil, ?_⟩
      intro segment impossible
      cases impossible
  | cons written rest ih =>
      unfold decodeLines
      have numbering := inRange_delivers .generatedLine (line : Int)
      refine numbering.bind ?_
      intro number isLine
      have sameLine : number = line := by omega
      refine (decodeSegments_delivers number false _ _).bind ?_
      intro first firstSound
      obtain ⟨onLine, moved⟩ := first
      obtain ⟨ordered, numbered⟩ := firstSound
      refine (ih (line + 1) moved).bind ?_
      intro later laterSound
      obtain ⟨laterOrdered, laterNumbered⟩ := laterSound
      simp only at ordered numbered
      refine .ok ⟨?_, ?_⟩
      · apply List.pairwise_append.mpr
        refine ⟨ordered, laterOrdered, ?_⟩
        intro first inFirst second inSecond
        have firstLine := (numbered first inFirst).1
        have secondLine := laterNumbered second inSecond
        rw [Position.lt_iff]
        omega
      · intro segment member
        rcases List.mem_append.mp member with isFirst | isLater
        · have sameNumber := (numbered segment isFirst).1
          omega
        · exact Nat.le_of_succ_le (laterNumbered segment isLater)

theorem decode_delivers (text : String) :
    Delivers Malformation.isOfParts
      (fun segments => Segment.Ordered segments ∧ Segment.Numbered segments) (decode text) := by
  refine (decodeLines_delivers 1 {} _).mono ?_
  intro segments sound
  obtain ⟨ordered, numbered⟩ := sound
  refine ⟨ordered, ?_⟩
  intro segment member
  have fromOne := numbered segment member
  omega

end Mappings

namespace WireMap

def built (wire : WireMap) : Except MappingError Mapping := do
  let segments ← (Mappings.decode wire.mappings).mapError .malformed
  let mapping ← Mapping.ofSegments segments wire.entries.toArray wire.names.toArray
  return { mapping with file := wire.file, sourceRoot := wire.sourceRoot }

/-- The third revision, with a content for every source or with none at all. -/
def Admissible (wire : WireMap) : Prop :=
  wire.version = 3 ∧
    ∀ contents ∈ wire.sourcesContent, contents.length = wire.sources.length

theorem decode_eq_built {wire : WireMap} (admissible : wire.Admissible) :
    wire.decode = wire.built := by
  obtain ⟨version, parallel⟩ := admissible
  rw [decode, if_neg (not_not_intro version)]
  cases isListed : wire.sourcesContent with
  | none => rfl
  | some contents =>
      simp only [if_neg (not_not_intro (parallel contents isListed))]
      rfl

theorem decode_eq_error {wire : WireMap} (refused : ¬ wire.Admissible) :
    ∃ cause, wire.decode = .error cause ∧ cause.isOfParts = false := by
  rw [decode]
  split
  · exact ⟨_, rfl, rfl⟩
  · rename_i version
    cases isListed : wire.sourcesContent with
    | none =>
        refine absurd ⟨not_not.mp version, ?_⟩ refused
        intro contents impossible
        rw [isListed] at impossible
        cases impossible
    | some contents =>
        simp only
        split
        · exact ⟨_, rfl, rfl⟩
        · rename_i parallel
          refine absurd ⟨not_not.mp version, ?_⟩ refused
          intro others same
          rw [isListed] at same
          cases same
          exact not_not.mp parallel

/-- A map that can be read can be built. -/
theorem decode_delivers (wire : WireMap) :
    Delivers MappingError.isOfParts (fun _ => True) wire.decode := by
  by_cases admissible : wire.Admissible
  · rw [decode_eq_built admissible, built]
    have decoded := Mappings.decode_delivers wire.mappings
    cases found : Mappings.decode wire.mappings with
    | error cause => exact .error (decoded.of_eq_error cause found)
    | ok segments =>
        obtain ⟨ordered, numbered⟩ := decoded.of_eq_ok segments found
        exact (Mapping.ofSegments_delivers ordered numbered _ _).bind fun _ _ => .ok trivial
  · obtain ⟨cause, fails, isOther⟩ := decode_eq_error admissible
    rw [fails]
    exact .error isOther

end WireMap

end SourceWeave
