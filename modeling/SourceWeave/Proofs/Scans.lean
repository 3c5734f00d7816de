import SourceWeave.Proofs.Building
import SourceWeave.Proofs.GuardedReading

/-!
Looking up by going through all segments. Whatever way a mapping has come about, its segments are in
order, and so halving finds of a line, of a place and in front of a place what a scan finds.
-/

set_option autoImplicit false

namespace SourceWeave.Mapping

/-- The segment of a line furthest to the right that starts at the column or before. -/
def IsLastOn (mapping : Mapping) (line column : Nat) (segment : Segment) : Prop :=
  (segment ∈ mapping.segments.toList ∧ segment.position.line = line ∧
      segment.position.column ≤ column) ∧
    ∀ other ∈ mapping.segments.toList, other.position.line = line →
      other.position.column ≤ column → other.position.column ≤ segment.position.column

variable (mapping : Mapping)

theorem covering_eq_some_iff {line column : Nat} {segment : Segment} :
    mapping.covering ⟨line, column⟩ = some segment ↔ mapping.IsLastOn line column segment := by
  rw [covering_eq, mapping.ordered.lastCovering_eq_some_iff, Segment.covers_iff, ← and_assoc]
  constructor
  · intro found
    obtain ⟨⟨member, covered⟩, greatest⟩ := found
    refine ⟨⟨member, covered⟩, ?_⟩
    intro other inOther sameLine atMost
    have before := greatest other inOther (Segment.covers_iff.mpr ⟨sameLine, atMost⟩)
    rw [Position.le_iff, sameLine, covered.1] at before
    exact (before.resolve_left (Nat.lt_irrefl line)).2
  · intro last
    obtain ⟨⟨member, covered⟩, greatest⟩ := last
    refine ⟨⟨member, covered⟩, ?_⟩
    intro other inOther otherCovers
    obtain ⟨sameLine, atMost⟩ := Segment.covers_iff.mp otherCovers
    have before := greatest other inOther sameLine atMost
    rw [Position.le_iff]
    exact Or.inr ⟨sameLine.trans covered.1.symm, before⟩

theorem covering_eq_none_iff {line column : Nat} :
    mapping.covering ⟨line, column⟩ = none ↔
      ∀ segment ∈ mapping.segments.toList, segment.position.line = line →
        column < segment.position.column := by
  rw [covering_eq, Segment.lastCovering, List.getLast?_eq_none_iff, List.filter_eq_nil_iff]
  refine forall_congr' fun segment => imp_congr_right fun _ => ?_
  rw [Segment.covers_iff, not_and, Nat.not_le]

theorem exists_ofSegments_eq_ok :
    ∃ built, ofSegments mapping.segments.toList mapping.sources mapping.names = .ok built ∧
      built.segments = mapping.segments := by
  obtain ⟨built, isBuilt⟩ :=
    exists_ofSegments mapping.ordered mapping.numbered mapping.sources mapping.names
  exact ⟨built, isBuilt, Array.toList_inj.mp (ofSegments_eq_ok isBuilt).1⟩

/-- A mapping looks up what a scan of its segments finds: those of a line, the last one of a line
up to a column, and how many stand in front of a place. It does so without a guard failing, and
whatever it comes from: its segments are in order, as those are that a mapping is built from. -/
structure LooksUpByScan (mapping : Mapping) : Prop where
  onLine : ∀ line, (mapping.lineSegments line).toList =
    mapping.segments.toList.filter fun segment => decide (segment.position.line = line)
  covered : ∀ line column segment,
    mapping.covering ⟨line, column⟩ = some segment ↔ mapping.IsLastOn line column segment
  notCovered : ∀ line column, mapping.covering ⟨line, column⟩ = none ↔
    ∀ segment ∈ mapping.segments.toList, segment.position.line = line →
      column < segment.position.column
  before : ∀ place, mapping.countBefore place =
    mapping.segments.toList.countP fun segment => decide (segment.position < place)
  guardedLine : ∀ line, Guarded.lineSegments mapping line = pure (mapping.lineSegments line)
  guardedCovering : ∀ place, Guarded.covering mapping place = pure (mapping.covering place)
  built : ∃ built, ofSegments mapping.segments.toList mapping.sources mapping.names = .ok built ∧
    built.segments = mapping.segments
  ofList : ∀ segments sources names, ofSegments segments sources names = .ok mapping →
    Segment.Ordered segments ∧ mapping.segments.toList = segments

theorem lookUps_scan (mapping : Mapping) : mapping.LooksUpByScan where
  onLine := mapping.lineSegments_eq
  covered _ _ _ := mapping.covering_eq_some_iff
  notCovered _ _ := mapping.covering_eq_none_iff
  before := by
    intro place
    rw [countBefore_eq, List.countP_eq_length_filter]
  guardedLine := Guarded.lineSegments_eq mapping
  guardedCovering := Guarded.covering_eq mapping
  built := mapping.exists_ofSegments_eq_ok
  ofList := by
    intro segments sources names built
    have held := (ofSegments_eq_ok built).1
    exact ⟨held ▸ mapping.ordered, held⟩

theorem lookUps_scan_gap :
    let first : Segment := .traced ⟨1, 2⟩ 0 1 0
    let second : Segment := .marker ⟨1, 5⟩
    let third : Segment := .traced ⟨3, 0⟩ 0 2 0
    ∃ mapping, ofSegments [first, second, third] #[] #[] = .ok mapping ∧
      (mapping.lineSegments 1).toList = [first, second] ∧ mapping.lineSegments 2 = #[] ∧
      mapping.covering ⟨1, 7⟩ = some second ∧ mapping.covering ⟨1, 1⟩ = none ∧
      mapping.covering ⟨2, 9⟩ = none ∧ mapping.countBefore ⟨2, 0⟩ = 2 := by
  intro first second third
  obtain ⟨mapping, built⟩ : ∃ mapping, ofSegments [first, second, third] #[] #[] = .ok mapping :=
    exists_ofSegments (Segment.ordered_of_firstDisorder?_eq_none _ rfl)
      (by unfold Segment.Numbered; decide) _ _
  have told := lookUps_scan mapping
  have held := (told.ofList _ _ _ built).2
  refine ⟨mapping, built, ?_, ?_, ?_, ?_, ?_, ?_⟩
  · rw [told.onLine, held]
    rfl
  · rw [← Array.toList_inj, told.onLine, held]
    rfl
  · rw [told.covered, IsLastOn, held]
    decide
  · rw [told.notCovered, held]
    decide
  · rw [told.notCovered, held]
    decide
  · rw [told.before, held]
    rfl

end SourceWeave.Mapping
