import SourceWeave.Proofs.AssemblyStep
import SourceWeave.Proofs.Building

/-!
What holds of an assembly at all times. Its segments are in order and within its
text, nothing is traced at its end, and no index points past a table, so that its
mapping can always be made and is in its shortest form.
-/

set_option autoImplicit false

namespace SourceWeave

theorem Segment.InTables.grow {sourceCount nameCount sourcesAfter namesAfter : Nat}
    {segments : List Segment} (inTables : InTables sourceCount nameCount segments)
    (moreSources : sourceCount ≤ sourcesAfter) (moreNames : nameCount ≤ namesAfter) :
    InTables sourcesAfter namesAfter segments := by
  intro segment member location isLocation
  obtain ⟨sourceWithin, nameWithin⟩ := inTables segment member location isLocation
  exact ⟨Nat.lt_of_lt_of_le sourceWithin moreSources,
    fun name isName => Nat.lt_of_lt_of_le (nameWithin name isName) moreNames⟩

theorem Segment.InTables.append {sourceCount nameCount : Nat} {front back : List Segment}
    (inFront : InTables sourceCount nameCount front)
    (inBack : InTables sourceCount nameCount back) :
    InTables sourceCount nameCount (front ++ back) := by
  intro segment member
  rcases List.mem_append.mp member with first | second
  · exact inFront segment first
  · exact inBack segment second

theorem Segment.inTables_marker (sourceCount nameCount : Nat) (place : Position) :
    InTables sourceCount nameCount [Segment.marker place] := by
  intro segment member location isLocation
  rw [List.mem_singleton.mp member] at isLocation
  cases isLocation

namespace Assembly

structure Coherent (children : List TracedText) (assembly : Assembly) : Prop where
  output : assembly.output = IndexedText.ofString assembly.output.text
  linked : assembly.Linked children
  sorted : Segment.Sorted assembly.segments.toList
  inside : ∀ segment ∈ assembly.segments.toList,
    Position.first ≤ segment.position ∧ segment.position ≤ assembly.output.endPosition
  quiet : Segment.tracing assembly.output.endPosition assembly.segments.toList = none
  inTables : Segment.InTables assembly.sources.entries.size assembly.names.names.size
    assembly.segments.toList
  distinctSources : (assembly.sources.entries.toList.map SourceRecord.identity).Nodup
  distinctNames : assembly.names.names.toList.Nodup

variable {children : List TracedText} {before after : Assembly}

theorem links_initial (count index : Nat) :
    (Array.replicate count (none : Option Links))[index]?.join = none := by
  rw [Array.getElem?_replicate]
  split <;> rfl

theorem coherent_initial (children : List TracedText) :
    Coherent children { links := Array.replicate children.length none } where
  output := rfl
  linked := by
    refine ⟨Array.size_replicate, ?_⟩
    intro index links found
    rw [links_initial] at found
    cases found
  sorted := List.Pairwise.nil
  inside := by
    intro segment impossible
    cases impossible
  quiet := rfl
  inTables := by
    intro segment impossible
    cases impossible
  distinctSources := List.nodup_nil
  distinctNames := List.nodup_nil

theorem Coherent.endPosition_eq (coherent : Coherent children before) :
    before.output.endPosition = Position.first.behind before.output.text.toList := by
  rw [coherent.output, IndexedText.endPosition_ofString, IndexedText.ofString_text]

theorem Coherent.append_output (coherent : Coherent children before) (text : String) :
    before.output.append text = IndexedText.ofString (before.output.text ++ text) := by
  rw [coherent.output, IndexedText.append_ofString, IndexedText.ofString_text]

theorem Coherent.endPosition_append (coherent : Coherent children before) (text : String) :
    (before.output.append text).endPosition = before.output.endPosition.behind text.toList := by
  rw [coherent.append_output, IndexedText.endPosition_ofString, coherent.endPosition_eq,
    String.toList_append, Position.behind_append]

theorem Coherent.tracing_eq_none (coherent : Coherent children before) {place : Position}
    (behind : before.output.endPosition ≤ place) :
    Segment.tracing place before.segments.toList = none :=
  Segment.tracing_eq_none_of_le (fun segment member => (coherent.inside segment member).2)
    coherent.quiet behind

theorem Coherent.first_le_endPosition (coherent : Coherent children before) :
    Position.first ≤ before.output.endPosition := by
  rw [coherent.endPosition_eq]
  exact Position.le_behind _ _

/-- A step keeps coherence if what it appends stands between the old end and the new
one and nothing is traced at the new end. -/
theorem Coherent.extend (coherent : Coherent children before) (added : List Segment)
    {given : List SourceRecord} {givenNames : List String}
    (output : after.output = IndexedText.ofString after.output.text)
    (linked : after.Linked children)
    (sources : after.sources.entries.toList =
      SourceRegistry.settle before.sources.entries.toList given)
    (names : after.names.names.toList = enlist id before.names.names.toList givenNames)
    (further : before.output.endPosition ≤ after.output.endPosition)
    (segments : after.segments.toList = before.segments.toList ++ added)
    (sorted : Segment.Sorted added)
    (between : ∀ segment ∈ added, before.output.endPosition ≤ segment.position ∧
      segment.position ≤ after.output.endPosition)
    (quiet : Segment.tracing after.output.endPosition (before.segments.toList ++ added) = none)
    (inTables : Segment.InTables after.sources.entries.size after.names.names.size added) :
    Coherent children after where
  output := output
  linked := linked
  sorted := by
    rw [segments]
    refine List.pairwise_append.mpr ⟨coherent.sorted, sorted, ?_⟩
    intro earlier inEarlier later isAdded
    exact Position.le_trans (coherent.inside earlier inEarlier).2 (between later isAdded).1
  inside := by
    intro segment member
    rw [segments] at member
    rcases List.mem_append.mp member with earlier | isAdded
    · obtain ⟨fromFirst, toEnd⟩ := coherent.inside segment earlier
      exact ⟨fromFirst, Position.le_trans toEnd further⟩
    · obtain ⟨fromEnd, toEnd⟩ := between segment isAdded
      exact ⟨Position.le_trans coherent.first_le_endPosition fromEnd, toEnd⟩
  quiet := by rw [segments, quiet]
  inTables := by
    rw [segments]
    exact (coherent.inTables.grow (SourceRegistry.size_le_of_settle sources)
      (NameRegistry.size_le_of_enlist names)).append inTables
  distinctSources := by
    rw [sources]
    exact SourceRegistry.settle_nodup coherent.distinctSources _
  distinctNames := by
    have distinct : (before.names.names.toList.map id).Nodup := by
      rw [List.map_id]
      exact coherent.distinctNames
    have grown := enlist_nodup id distinct givenNames
    rwa [List.map_id, ← names] at grown

/-! ### One piece -/

theorem insert_segments (before : Assembly) (text : String) (marked : Bool) :
    ∃ added, (before.insert true text marked).segments.toList = before.segments.toList ++ added ∧
      (added = [] ∨ added = [Segment.marker before.output.endPosition]) := by
  by_cases marking : marked = true ∧ text ≠ ""
  · refine ⟨_, ?_, Or.inr rfl⟩
    simp [insert, append, marking]
  · refine ⟨_, ?_, Or.inl rfl⟩
    simp [insert, append, marking]

theorem Coherent.tracing_insert (coherent : Coherent children before) (text : String)
    (marked : Bool) {place : Position} (inserted : before.output.endPosition ≤ place) :
    Segment.tracing place (before.insert true text marked).segments.toList = none := by
  obtain ⟨added, segments, nothing | marker⟩ := insert_segments before text marked
  · rw [segments, nothing, List.append_nil]
    exact coherent.tracing_eq_none inserted
  · rw [segments, marker]
    apply Segment.tracing_eq_none_of_le _ (Segment.tracing_append_marker _ _) inserted
    intro segment member
    rcases List.mem_append.mp member with earlier | isMarker
    · exact (coherent.inside segment earlier).2
    · rw [List.mem_singleton.mp isMarker]
      exact Position.le_refl _

theorem Coherent.insert (coherent : Coherent children before) (text : String) (marked : Bool) :
    Coherent children (before.insert true text marked) := by
  have further :
      before.output.endPosition ≤ (before.insert true text marked).output.endPosition := by
    change _ ≤ (before.output.append text).endPosition
    rw [coherent.endPosition_append]
    exact Position.le_behind _ _
  have output : (before.insert true text marked).output =
      IndexedText.ofString (before.insert true text marked).output.text :=
    coherent.append_output text
  have linked : (before.insert true text marked).Linked children := coherent.linked
  have sources : (before.insert true text marked).sources.entries.toList =
      SourceRegistry.settle before.sources.entries.toList [] := rfl
  have names : (before.insert true text marked).names.names.toList =
      enlist id before.names.names.toList [] := rfl
  obtain ⟨added, segments, isAdded⟩ := insert_segments before text marked
  have quiet := coherent.tracing_insert text marked further
  rw [segments] at quiet
  rcases isAdded with nothing | marker
  · rw [nothing] at segments quiet
    apply coherent.extend [] output linked sources names further segments List.Pairwise.nil _ quiet
    · intro segment impossible
      cases impossible
    · intro segment impossible
      cases impossible
  · rw [marker] at segments quiet
    refine coherent.extend _ output linked sources names further segments
      (List.pairwise_singleton _ _) ?_ quiet (Segment.inTables_marker _ _ _)
    intro segment isMarker
    rw [List.mem_singleton.mp isMarker]
    exact ⟨Position.le_refl _, further⟩

namespace Copied

variable {child : TracedText} {links : Links} {index start stop : Nat}

theorem characters (copied : Copied child links index start stop before after) :
    after.output.text.toList =
      before.output.text.toList ++ Utf16.between start stop child.text.toList := by
  rw [copied.output]
  simp [IndexedText.append]

theorem endPosition_eq (copied : Copied child links index start stop before after)
    (coherent : Coherent children before) :
    after.output.endPosition =
      before.output.endPosition.behind (Utf16.between start stop child.text.toList) := by
  rw [copied.output, coherent.endPosition_append, String.toList_ofList]

theorem endPosition_eq_relocate (copied : Copied child links index start stop before after)
    (coherent : Coherent children before) :
    after.output.endPosition =
      (Position.first.behind (Utf16.take stop child.text.toList)).relocate
        (Position.first.behind (Utf16.take start child.text.toList))
        before.output.endPosition := by
  rw [copied.endPosition_eq coherent, Position.relocate_behind_take copied.inOrder]

theorem moved_inside (copied : Copied child links index start stop before after)
    (coherent : Coherent children before) (some : start < stop) {segment : Segment}
    (member : segment ∈ links.locals (Position.ofOffset child.text.toList start)
      (Position.ofOffset child.text.toList stop)) :
    before.output.endPosition ≤
        (segment.moved (Position.ofOffset child.text.toList start)
          before.output.endPosition).position ∧
      (segment.moved (Position.ofOffset child.text.toList start)
          before.output.endPosition).position ≤ after.output.endPosition := by
  have within : stop ≤ Utf16.length child.text.toList := copied.within
  have fromStart := Links.start_le_of_mem_locals member
  have beforeStop :=
    Links.lt_stop_of_mem_locals (Position.ofOffset_lt_ofOffset some within) member
  have cuts : Position.first.behind (Utf16.take start child.text.toList) ≤
      Position.first.behind (Utf16.take stop child.text.toList) := by
    rw [← Utf16.take_append_between copied.inOrder, Position.behind_append]
    exact Position.le_behind _ _
  constructor
  · exact Position.target_le_relocate _ _ _ fromStart
  · rw [copied.endPosition_eq_relocate coherent]
    exact Position.relocate_le_relocate_of_late (Position.ofOffset_line _ _)
      (Nat.le_add_right _ _) (Position.ofOffset_line _ _) (Position.ofOffset_column_le within)
      fromStart beforeStop cuts _

theorem linked (copied : Copied child links index start stop before after)
    (isChild : children[index]? = some child) (sameSize : after.links.size = before.links.size)
    (linkedBefore : before.Linked children) : after.Linked children := by
  refine ⟨sameSize.trans linkedBefore.1, ?_⟩
  intro other held isHeld
  rw [copied.linksAfter] at isHeld
  split at isHeld
  · rename_i same
    cases isHeld
    exact ⟨child, same ▸ isChild, copied.fits⟩
  · obtain ⟨owner, isOwner, fits⟩ := linkedBefore.2 other held isHeld
    exact ⟨owner, isOwner, fits.grow copied.sources copied.names⟩

/-- The segments that a copy appends are in order, stand between its ends and leave
nothing traced at the end. -/
theorem appended (copied : Copied child links index start stop before after)
    (coherent : Coherent children before) :
    ∃ added, after.segments.toList = before.segments.toList ++ added ∧ Segment.Sorted added ∧
      (∀ segment ∈ added, before.output.endPosition ≤ segment.position ∧
        segment.position ≤ after.output.endPosition) ∧
      Segment.tracing after.output.endPosition (before.segments.toList ++ added) = none ∧
      Segment.InTables after.sources.entries.size after.names.names.size added := by
  have further : before.output.endPosition ≤ after.output.endPosition := by
    rw [copied.endPosition_eq coherent]
    exact Position.le_behind _ _
  refine ⟨_, copied.segments, ?_⟩
  split
  · refine ⟨List.Pairwise.nil, ?_, ?_, ?_⟩
    · intro segment impossible
      cases impossible
    · rw [List.append_nil]
      exact coherent.tracing_eq_none further
    · intro segment impossible
      cases impossible
  · rename_i different
    have some : start < stop := Nat.lt_of_le_of_ne copied.inOrder different
    have inOrder := Position.ofOffset_lt_ofOffset some copied.within
    rw [links.segments_eq (Position.le_of_lt inOrder)]
    have between : ∀ segment ∈ (links.locals (Position.ofOffset child.text.toList start)
        (Position.ofOffset child.text.toList stop)).map
          (Segment.moved (Position.ofOffset child.text.toList start)
            before.output.endPosition) ++ [Segment.marker after.output.endPosition],
        before.output.endPosition ≤ segment.position ∧
          segment.position ≤ after.output.endPosition := by
      intro segment member
      rcases List.mem_append.mp member with isMoved | isMarker
      · obtain ⟨original, isLocal, isSegment⟩ := List.mem_map.mp isMoved
        rw [← isSegment]
        exact copied.moved_inside coherent some isLocal
      · rw [List.mem_singleton.mp isMarker]
        exact ⟨further, Position.le_refl _⟩
    refine ⟨?_, between, ?_, ?_⟩
    · refine List.pairwise_append.mpr ⟨?_, List.pairwise_singleton _ _, ?_⟩
      · apply List.pairwise_map.mpr
        refine List.Pairwise.imp_of_mem ?_ (links.locals_ordered _ _)
        intro earlier later inEarlier _ inOrder
        exact Position.relocate_le_relocate (Links.start_le_of_mem_locals inEarlier)
          (Position.le_of_lt inOrder) _
      · intro earlier isMoved later isMarker
        rw [List.mem_singleton.mp isMarker]
        exact (between earlier (List.mem_append_left _ isMoved)).2
    · rw [← List.append_assoc]
      exact Segment.tracing_append_marker _ _
    · refine Segment.InTables.append ?_ (Segment.inTables_marker _ _ _)
      intro segment isMoved
      obtain ⟨original, isLocal, isSegment⟩ := List.mem_map.mp isMoved
      rw [← isSegment]
      exact copied.fits.locals_inTables _ _ original isLocal

theorem coherent (copied : Copied child links index start stop before after)
    (isChild : children[index]? = some child) (sameSize : after.links.size = before.links.size)
    (coherentBefore : Coherent children before) : Coherent children after := by
  have output : after.output = IndexedText.ofString after.output.text := by
    rw [copied.output, coherentBefore.append_output, IndexedText.ofString_text]
  have further : before.output.endPosition ≤ after.output.endPosition := by
    rw [copied.endPosition_eq coherentBefore]
    exact Position.le_behind _ _
  obtain ⟨added, segments, sorted, between, quiet, inTables⟩ := copied.appended coherentBefore
  exact coherentBefore.extend added output (copied.linked isChild sameSize coherentBefore.linked)
    copied.sources copied.names further segments sorted between quiet inTables

end Copied

/-! ### All pieces -/

theorem Coherent.step (coherent : Coherent children before) {piece : Piece}
    (stepped : before.step true (children.map Strand.ofTracedText).toArray piece = .ok after) :
    Coherent children after := by
  cases piece with
  | copy index start stop =>
      obtain ⟨child, links, isChild, copied, sameSize⟩ := copy_eq_ok coherent.linked stepped
      exact copied.coherent isChild sameSize coherent
  | insert text marked =>
      cases stepped
      exact coherent.insert text marked

theorem Coherent.run (coherent : Coherent children before) {pieces : List Piece}
    (ran : pieces.foldlM (Assembly.step true (children.map Strand.ofTracedText).toArray) before =
      .ok after) : Coherent children after := by
  induction pieces generalizing before with
  | nil =>
      cases ran
      exact coherent
  | cons piece rest ih =>
      rw [List.foldlM_cons] at ran
      obtain ⟨middle, stepped, ran⟩ := exists_of_bind_eq_ok ran
      exact ih (coherent.step stepped) ran

private theorem Coherent.lt_endPosition (coherent : Coherent children before) {segment : Segment}
    (member : segment ∈ Segment.prune before.output.endPosition
      (Segment.latest before.segments.toList)) :
    segment.position < before.output.endPosition := by
  cases kind : segment.isMarker with
  | true => exact Segment.lt_of_mem_pruneFrom member kind
  | false =>
      have ordered := Segment.keepLast_ordered coherent.sorted
      have kept := (Segment.prune_sublist _ _).subset member
      rw [Segment.latest_of_sorted coherent.sorted] at kept
      have bounded := fun (other : Segment) inKept =>
        (coherent.inside other ((Segment.keepLast_sublist _).subset inKept)).2
      refine Position.lt_of_le_of_ne (bounded segment kept) ?_
      intro atEnd
      -- A traced segment at the end would be what is traced there.
      have found : Segment.lastCovering before.output.endPosition
          (Segment.keepLast before.segments.toList) = some segment := by
        apply ordered.lastCovering_eq_some_iff.mpr
        refine ⟨kept, Segment.covers_of_le (by rw [atEnd]) (bounded segment kept), ?_⟩
        intro other inKept _
        rw [atEnd]
        exact bounded other inKept
      have quiet := coherent.quiet
      rw [Segment.tracing, ← Segment.lastCovering_keepLast, found,
        Segment.unlessMarker_traced kind] at quiet
      cases quiet

theorem Coherent.exists_mapping (coherent : Coherent children before) :
    ∃ mapping, before.mapping = .ok mapping := by
  have fewer := Segment.prune_sublist before.output.endPosition
    (Segment.latest before.segments.toList)
  rw [Segment.latest_of_sorted coherent.sorted] at fewer
  rw [Assembly.mapping, Segment.latest_of_sorted coherent.sorted]
  apply Mapping.exists_ofSegments
  · exact (Segment.keepLast_ordered coherent.sorted).sublist fewer
  · intro segment member
    have inSegments := (Segment.keepLast_sublist _).subset (fewer.subset member)
    have fromFirst := (coherent.inside segment inSegments).1
    rw [Position.le_iff, Position.first_line] at fromFirst
    omega

theorem Coherent.mapping_eq_ok (coherent : Coherent children before) {mapping : Mapping}
    (made : before.mapping = .ok mapping) :
    mapping.segments.toList =
        Segment.prune before.output.endPosition (Segment.latest before.segments.toList) ∧
      mapping.sources = before.sources.entries ∧ mapping.names = before.names.names ∧
      mapping.file = none ∧ mapping.sourceRoot = none ∧
      Segment.Tidy mapping.sources.size mapping.names.size before.output.endPosition
        mapping.segments.toList := by
  obtain ⟨sameSegments, sameSources, sameNames, noFile, noRoot⟩ := Mapping.ofSegments_eq_ok made
  refine ⟨sameSegments, sameSources, sameNames, noFile, noRoot, ?_⟩
  have fewer : (Segment.prune before.output.endPosition
      (Segment.latest before.segments.toList)).Sublist before.segments.toList := by
    rw [Segment.latest_of_sorted coherent.sorted]
    exact (Segment.prune_sublist _ _).trans (Segment.keepLast_sublist _)
  rw [sameSources, sameNames, sameSegments]
  exact
    { ordered := by
        rw [← sameSegments]
        exact mapping.ordered
      pruned := Segment.prune_pruned _ _
      inTables := coherent.inTables.sublist fewer
      inside := fun segment member => coherent.lt_endPosition member }

end Assembly

end SourceWeave
