import SourceWeave.Proofs.Coherence

/-!
What an assembly says of every place. A piece settles the places between where it
lands and where it ends: a copy says there what the child says of the copied place,
an insertion says nothing. No later piece changes what was said.
-/

set_option autoImplicit false

namespace SourceWeave

namespace Segment

variable {sources : Array SourceRecord} {names : Array String} {place : Position}

theorem reading?_append_of_later {front back : List Segment}
    (later : ∀ segment ∈ back, place < segment.position) :
    reading? sources names (front ++ back) place = reading? sources names front place := by
  rw [reading?, lastCovering_append, lastCovering_of_later later]
  rfl

theorem reading?_append_of_quiet {front back : List Segment} (quiet : tracing place front = none) :
    reading? sources names (front ++ back) place = reading? sources names back place := by
  rw [reading?_eq_tracing, reading?_eq_tracing, tracing, tracing, lastCovering_append]
  cases lastCovering place back with
  | some segment => rfl
  | none =>
      rw [Option.none_or]
      change (tracing place front).bind _ = _
      rw [quiet]
      rfl

theorem reading?_grow {before after : SourceRegistry} {namesBefore namesAfter : NameRegistry}
    {given : List SourceRecord} {givenNames : List String} {segments : List Segment}
    (inTables : InTables before.entries.size namesBefore.names.size segments)
    (sourcesGrown : after.entries.toList = SourceRegistry.settle before.entries.toList given)
    (namesGrown : namesAfter.names.toList = enlist id namesBefore.names.toList givenNames) :
    reading? after.entries namesAfter.names segments place =
      reading? before.entries namesBefore.names segments place := by
  rw [reading?, reading?]
  cases found : lastCovering place segments with
  | none => rfl
  | some segment =>
      rw [Option.bind_some, Option.bind_some, read, read]
      cases isOrigin : segment.origin with
      | none => rfl
      | some location =>
          obtain ⟨sourceWithin, nameWithin⟩ :=
            inTables segment (mem_of_lastCovering found).1 location isOrigin
          have sameEntry := SourceRegistry.getElem?_of_settle sourcesGrown
            (Array.getElem?_eq_getElem sourceWithin)
          have sameName : location.name.bind (namesAfter.names[·]?) =
              location.name.bind (namesBefore.names[·]?) := by
            cases isName : location.name with
            | none => rfl
            | some name =>
                have within := nameWithin name isName
                rw [Option.bind_some, Option.bind_some, Array.getElem?_eq_getElem within]
                exact NameRegistry.getElem?_of_enlist namesGrown
                  (Array.getElem?_eq_getElem within)
          simp only [Option.bind_eq_bind, Option.bind_some, sameEntry,
            Array.getElem?_eq_getElem sourceWithin, sameName]

end Segment

namespace Piece

variable (children : List TracedText)

def child? : Piece → Option TracedText
  | .copy index _ _ => children[index]?
  | .insert _ _ => none

def characters : Piece → List Char
  | .copy index start stop =>
      (children[index]?).elim [] fun child => Utf16.between start stop child.text.toList
  | .insert text _ => text.toList

def entries (piece : Piece) : List SourceRecord :=
  (piece.child? children).elim [] TracedText.entries

def nameEntries (piece : Piece) : List String :=
  (piece.child? children).elim [] TracedText.nameEntries

def isTracked (piece : Piece) : Bool :=
  (piece.child? children).any fun child => child.provenance.isTracked

def Aligned : Piece → Prop
  | .copy index start stop =>
      ∀ child, children[index]? = some child →
        Utf16.Aligned child.text.toList start ∧ Utf16.Aligned child.text.toList stop
  | .insert _ _ => True

instance (piece : Piece) : Decidable (piece.Aligned children) :=
  match piece with
  | .copy index start stop =>
      match isChild : children[index]? with
      | none => isTrue (by simp [Aligned, isChild])
      | some child =>
          decidable_of_iff (Utf16.Aligned child.text.toList start ∧
            Utf16.Aligned child.text.toList stop) (by simp [Aligned, isChild])
  | .insert _ _ => isTrue trivial

/-- What a piece that lands on `target` says of a place in it. -/
def reading? (target place : Position) : Piece → Option Mapping.Reading
  | .copy index start _ =>
      (children[index]?).bind fun child =>
        let origin := Position.ofOffset child.text.toList start
        let original := place.relocate target origin
        (child.reading? original).map (Mapping.Reading.copiedFrom origin original)
  | .insert _ _ => none

/-- What pieces say together, the first of which lands on `target`. -/
def readings? (place : Position) : Position → List Piece → Option Mapping.Reading
  | _, [] => none
  | target, piece :: rest =>
      if place < target.behind (piece.characters children) then
        piece.reading? children target place
      else
        readings? place (target.behind (piece.characters children)) rest

end Piece

namespace Assembly

variable {children : List TracedText} {before after : Assembly} {place : Position}

def reading? (assembly : Assembly) (place : Position) : Option Mapping.Reading :=
  Segment.reading? assembly.sources.entries assembly.names.names assembly.segments.toList place

theorem Coherent.reading?_of_behind (coherent : Coherent children before)
    (behind : before.output.endPosition ≤ place) : before.reading? place = none := by
  rw [reading?, Segment.reading?_eq_tracing, coherent.tracing_eq_none behind]
  rfl

/-! ### One piece -/

theorem reading?_insert_of_lt (text : String) (marked : Bool)
    (earlier : place < before.output.endPosition) :
    (before.insert true text marked).reading? place = before.reading? place := by
  change Segment.reading? before.sources.entries before.names.names _ place = _
  obtain ⟨added, segments, isAdded⟩ := insert_segments before text marked
  rw [segments, Segment.reading?_append_of_later]
  · rfl
  · intro segment member
    rcases isAdded with nothing | marker
    · rw [nothing] at member
      cases member
    · rw [marker] at member
      rw [List.mem_singleton.mp member]
      exact earlier

theorem Coherent.reading?_insert_of_le (coherent : Coherent children before) (text : String)
    (marked : Bool) (inserted : before.output.endPosition ≤ place) :
    (before.insert true text marked).reading? place = none := by
  rw [reading?, Segment.reading?_eq_tracing, coherent.tracing_insert text marked inserted]
  rfl

namespace Copied

variable {child : TracedText} {links : Links} {index start stop : Nat}

theorem reading?_of_lt (copied : Copied child links index start stop before after)
    (coherent : Coherent children before) (earlier : place < before.output.endPosition) :
    after.reading? place = before.reading? place := by
  obtain ⟨added, segments, _, between, _⟩ := copied.appended coherent
  rw [reading?, segments, Segment.reading?_append_of_later]
  · exact Segment.reading?_grow coherent.inTables copied.sources copied.names
  · intro segment member
    exact Position.lt_of_lt_of_le earlier (between segment member).1

theorem reading?_of_inCopy (copied : Copied child links index start stop before after)
    (coherent : Coherent children before) (fromTarget : before.output.endPosition ≤ place)
    (inCopy : place < after.output.endPosition) :
    after.reading? place =
      Segment.reading? after.sources.entries after.names.names
        (links.locals (Position.ofOffset child.text.toList start)
          (Position.ofOffset child.text.toList stop))
        (place.relocate before.output.endPosition
          (Position.ofOffset child.text.toList start)) := by
  have different : start ≠ stop := by
    intro same
    rw [copied.endPosition_eq_relocate coherent, same, Position.relocate_self] at inCopy
    exact Position.lt_irrefl _ (Position.lt_of_le_of_lt fromTarget inCopy)
  have some : start < stop := Nat.lt_of_le_of_ne copied.inOrder different
  have inOrder := Position.le_of_lt (Position.ofOffset_lt_ofOffset some copied.within)
  rw [reading?, copied.segments, if_neg different, links.segments_eq inOrder,
    ← List.append_assoc, Segment.reading?_append_of_later,
    Segment.reading?_append_of_quiet (coherent.tracing_eq_none fromTarget),
    Segment.reading?_moved (fun segment => Links.start_le_of_mem_locals) fromTarget]
  intro segment isMarker
  rw [List.mem_singleton.mp isMarker]
  exact inCopy

theorem reading?_of_between (copied : Copied child links index start stop before after)
    (coherent : Coherent children before)
    (fromTarget : before.output.endPosition ≤ place) (inCopy : place < after.output.endPosition)
    (beforeStop : place.relocate before.output.endPosition
      (Position.ofOffset child.text.toList start) < Position.ofOffset child.text.toList stop) :
    after.reading? place =
      (child.reading? (place.relocate before.output.endPosition
        (Position.ofOffset child.text.toList start))).map
          (Mapping.Reading.copiedFrom (Position.ofOffset child.text.toList start)
            (place.relocate before.output.endPosition
              (Position.ofOffset child.text.toList start))) := by
  have fromStart := Position.target_le_relocate place before.output.endPosition
    (Position.ofOffset child.text.toList start) fromTarget
  rw [copied.reading?_of_inCopy coherent fromTarget inCopy,
    copied.fits.reading?_locals fromStart beforeStop]

/-- Of its own places a copy between character boundaries says what the child says of the copied
ones. -/
theorem reading?_of_le (copied : Copied child links index start stop before after)
    (coherent : Coherent children before) (startAligned : Utf16.Aligned child.text.toList start)
    (stopAligned : Utf16.Aligned child.text.toList stop)
    (fromTarget : before.output.endPosition ≤ place) (inCopy : place < after.output.endPosition) :
    after.reading? place =
      (child.reading? (place.relocate before.output.endPosition
        (Position.ofOffset child.text.toList start))).map
          (Mapping.Reading.copiedFrom (Position.ofOffset child.text.toList start)
            (place.relocate before.output.endPosition
              (Position.ofOffset child.text.toList start))) := by
  have landed := copied.endPosition_eq_relocate coherent
  rw [← Position.ofOffset_of_aligned startAligned,
    ← Position.ofOffset_of_aligned stopAligned] at landed
  have different : start ≠ stop := by
    intro same
    rw [landed, same, Position.relocate_self] at inCopy
    exact Position.lt_irrefl _ (Position.lt_of_le_of_lt fromTarget inCopy)
  have some : start < stop := Nat.lt_of_le_of_ne copied.inOrder different
  have inOrder := Position.le_of_lt (Position.ofOffset_lt_ofOffset some copied.within)
  apply copied.reading?_of_between coherent fromTarget inCopy
  have moved := Position.relocate_lt_relocate fromTarget inCopy
    (Position.ofOffset child.text.toList start)
  rwa [landed, Position.relocate_back inOrder] at moved

end Copied

theorem Coherent.reading?_step_of_lt (coherent : Coherent children before) {piece : Piece}
    (stepped : before.step true (children.map Strand.ofTracedText).toArray piece = .ok after)
    (earlier : place < before.output.endPosition) :
    after.reading? place = before.reading? place := by
  cases piece with
  | copy index start stop =>
      obtain ⟨child, links, _, copied, _⟩ := copy_eq_ok coherent.linked stepped
      exact copied.reading?_of_lt coherent earlier
  | insert text marked =>
      cases stepped
      exact reading?_insert_of_lt text marked earlier

theorem Coherent.reading?_step (coherent : Coherent children before) {piece : Piece}
    (aligned : piece.Aligned children)
    (stepped : before.step true (children.map Strand.ofTracedText).toArray piece = .ok after)
    (place : Position) :
    after.reading? place =
      if place < before.output.endPosition then before.reading? place
      else if place < before.output.endPosition.behind (piece.characters children) then
        piece.reading? children before.output.endPosition place
      else none := by
  by_cases earlier : place < before.output.endPosition
  · rw [if_pos earlier, coherent.reading?_step_of_lt stepped earlier]
  · rw [if_neg earlier]
    have fromTarget := Position.not_lt.mp earlier
    cases piece with
    | copy index start stop =>
        obtain ⟨child, links, isChild, copied, sameSize⟩ := copy_eq_ok coherent.linked stepped
        have coherentAfter := copied.coherent isChild sameSize coherent
        obtain ⟨startAligned, stopAligned⟩ := aligned child isChild
        rw [Piece.characters, isChild, Option.elim_some, ← copied.endPosition_eq coherent]
        by_cases inCopy : place < after.output.endPosition
        · rw [if_pos inCopy, Piece.reading?, isChild, Option.bind_some]
          exact copied.reading?_of_le coherent startAligned stopAligned fromTarget inCopy
        · rw [if_neg inCopy, coherentAfter.reading?_of_behind (Position.not_lt.mp inCopy)]
    | insert text marked =>
        cases stepped
        rw [coherent.reading?_insert_of_le text marked fromTarget]
        split <;> rfl

/-! ### All pieces -/

theorem isTracked_iff (assembly : Assembly) :
    assembly.isTracked = true ↔
      ∃ (index : Nat) (links : Links), assembly.links[index]?.join = some links ∧
        links.isTracked = true := by
  rw [isTracked, Array.any_eq_true]
  constructor
  · intro someTracked
    obtain ⟨index, within, tracked⟩ := someTracked
    refine ⟨index, ?_⟩
    rw [Array.getElem?_eq_getElem within]
    cases held : assembly.links[index] with
    | none =>
        rw [held] at tracked
        cases tracked
    | some links =>
        rw [held, Option.any_some] at tracked
        exact ⟨links, rfl, tracked⟩
  · intro someLinked
    obtain ⟨index, links, isLinks, tracked⟩ := someLinked
    rw [Option.join_eq_some_iff] at isLinks
    obtain ⟨within, isHeld⟩ := Array.getElem?_eq_some_iff.mp isLinks
    refine ⟨index, within, ?_⟩
    rw [isHeld, Option.any_some]
    exact tracked

theorem isTracked_of_unlinked {assembly : Assembly} {count : Nat}
    (unlinked : assembly.links = Array.replicate count none) : assembly.isTracked = false := by
  rw [Bool.eq_false_iff]
  intro tracked
  obtain ⟨index, links, found, _⟩ := (isTracked_iff _).mp tracked
  rw [unlinked, links_initial] at found
  cases found

/-- What pieces add to an assembly, whatever is said of its places. -/
structure Extended (children : List TracedText) (pieces : List Piece) (before after : Assembly) :
    Prop where
  characters : after.output.text.toList =
    before.output.text.toList ++ pieces.flatMap (Piece.characters children)
  sources : after.sources.entries.toList =
    SourceRegistry.settle before.sources.entries.toList (pieces.flatMap (Piece.entries children))
  names : after.names.names.toList =
    enlist id before.names.names.toList (pieces.flatMap (Piece.nameEntries children))
  tracked : after.isTracked = (before.isTracked || pieces.any (Piece.isTracked children))

theorem Copied.isTracked {child : TracedText} {links : Links} {index start stop : Nat}
    (copied : Copied child links index start stop before after) :
    after.isTracked = (before.isTracked || child.provenance.isTracked) := by
  rw [Bool.eq_iff_iff, Bool.or_eq_true, isTracked_iff, isTracked_iff, ← copied.fits.isTracked_eq]
  constructor
  · intro someLinked
    obtain ⟨other, held, isHeld, tracked⟩ := someLinked
    rw [copied.linksAfter] at isHeld
    split at isHeld
    · cases isHeld
      exact Or.inr tracked
    · exact Or.inl ⟨other, held, isHeld, tracked⟩
  · intro either
    rcases either with ⟨other, held, isHeld, tracked⟩ | tracked
    · by_cases same : other = index
      · rw [same] at isHeld
        refine ⟨index, links, ?_, copied.linksBefore held isHeld ▸ tracked⟩
        rw [copied.linksAfter, if_pos rfl]
      · refine ⟨other, held, ?_, tracked⟩
        rw [copied.linksAfter, if_neg same]
        exact isHeld
    · refine ⟨index, links, ?_, tracked⟩
      rw [copied.linksAfter, if_pos rfl]

theorem extended_step (linked : before.Linked children) {piece : Piece}
    (stepped : before.step true (children.map Strand.ofTracedText).toArray piece = .ok after) :
    Extended children [piece] before after := by
  cases piece with
  | copy index start stop =>
      obtain ⟨child, links, isChild, copied, _⟩ := copy_eq_ok linked stepped
      have isCopied : (Piece.copy index start stop).child? children = some child := isChild
      exact
        { characters := by
            rw [copied.characters, List.flatMap_singleton, Piece.characters, isChild,
              Option.elim_some]
          sources := by
            rw [copied.sources, List.flatMap_singleton, Piece.entries, isCopied, Option.elim_some]
          names := by
            rw [copied.names, List.flatMap_singleton, Piece.nameEntries, isCopied,
              Option.elim_some]
          tracked := by
            rw [copied.isTracked, List.any_cons, List.any_nil, Bool.or_false, Piece.isTracked,
              isCopied, Option.any_some] }
  | insert text marked =>
      cases stepped
      exact
        { characters := by simp [insert, append, IndexedText.append, Piece.characters]
          sources := rfl
          names := rfl
          tracked := (Bool.or_false _).symm }

theorem Extended.trans {middle : Assembly} {front back : List Piece}
    (first : Extended children front before middle) (second : Extended children back middle after) :
    Extended children (front ++ back) before after where
  characters := by
    rw [second.characters, first.characters, List.flatMap_append, List.append_assoc]
  sources := by
    rw [second.sources, first.sources, List.flatMap_append, SourceRegistry.settle_append]
  names := by rw [second.names, first.names, List.flatMap_append, enlist_append]
  tracked := by rw [second.tracked, first.tracked, List.any_append, Bool.or_assoc]

theorem Coherent.extended_run (coherent : Coherent children before) {pieces : List Piece}
    (ran : pieces.foldlM (Assembly.step true (children.map Strand.ofTracedText).toArray) before =
      .ok after) : Extended children pieces before after := by
  induction pieces generalizing before with
  | nil =>
      cases ran
      exact ⟨by simp, rfl, rfl, (Bool.or_false _).symm⟩
  | cons piece rest ih =>
      rw [List.foldlM_cons] at ran
      obtain ⟨middle, stepped, ran⟩ := exists_of_bind_eq_ok ran
      exact (extended_step coherent.linked stepped).trans (ih (coherent.step stepped) ran)

theorem Coherent.endPosition_step (coherent : Coherent children before) {piece : Piece}
    (stepped : before.step true (children.map Strand.ofTracedText).toArray piece = .ok after) :
    after.output.endPosition =
      before.output.endPosition.behind (piece.characters children) := by
  rw [(coherent.step stepped).endPosition_eq, coherent.endPosition_eq,
    (extended_step coherent.linked stepped).characters, List.flatMap_singleton,
    Position.behind_append]

theorem Coherent.endPosition_run (coherent : Coherent children before) {pieces : List Piece}
    (ran : pieces.foldlM (Assembly.step true (children.map Strand.ofTracedText).toArray) before =
      .ok after) :
    after.output.endPosition =
      before.output.endPosition.behind (pieces.flatMap (Piece.characters children)) := by
  rw [(coherent.run ran).endPosition_eq, coherent.endPosition_eq,
    (coherent.extended_run ran).characters, Position.behind_append]

theorem Coherent.endPosition_le_of_run (coherent : Coherent children before) {pieces : List Piece}
    (ran : pieces.foldlM (Assembly.step true (children.map Strand.ofTracedText).toArray) before =
      .ok after) : before.output.endPosition ≤ after.output.endPosition := by
  rw [coherent.endPosition_run ran]
  exact Position.le_behind _ _

theorem Coherent.reading?_run_of_lt (coherent : Coherent children before) {pieces : List Piece}
    (ran : pieces.foldlM (Assembly.step true (children.map Strand.ofTracedText).toArray) before =
      .ok after) (earlier : place < before.output.endPosition) :
    after.reading? place = before.reading? place := by
  induction pieces generalizing before with
  | nil =>
      cases ran
      rfl
  | cons piece rest ih =>
      rw [List.foldlM_cons] at ran
      obtain ⟨middle, stepped, ran⟩ := exists_of_bind_eq_ok ran
      have further := Position.lt_of_lt_of_le earlier
        (Position.le_behind _ (piece.characters children))
      rw [← coherent.endPosition_step stepped] at further
      rw [ih (coherent.step stepped) ran further, coherent.reading?_step_of_lt stepped earlier]

/-- What is said at the end of a run was said before it or is said by its pieces. -/
theorem Coherent.reading?_run (coherent : Coherent children before) {pieces : List Piece}
    (aligned : ∀ piece ∈ pieces, piece.Aligned children)
    (ran : pieces.foldlM (Assembly.step true (children.map Strand.ofTracedText).toArray) before =
      .ok after) (place : Position) :
    after.reading? place =
      if place < before.output.endPosition then before.reading? place
      else Piece.readings? children place before.output.endPosition pieces := by
  induction pieces generalizing before with
  | nil =>
      cases ran
      by_cases earlier : place < after.output.endPosition
      · rw [if_pos earlier]
      · rw [if_neg earlier, coherent.reading?_of_behind (Position.not_lt.mp earlier)]
        rfl
  | cons piece rest ih =>
      rw [List.foldlM_cons] at ran
      obtain ⟨middle, stepped, ran⟩ := exists_of_bind_eq_ok ran
      have landed := coherent.endPosition_step stepped
      rw [ih (coherent.step stepped)
          (fun other member => aligned other (List.mem_cons_of_mem piece member)) ran,
        coherent.reading?_step (aligned piece List.mem_cons_self) stepped, landed, Piece.readings?]
      by_cases earlier : place < before.output.endPosition
      · rw [if_pos (Position.lt_of_lt_of_le earlier (Position.le_behind _ _)), if_pos earlier,
          if_pos earlier]
      · by_cases inPiece :
          place < before.output.endPosition.behind (piece.characters children)
        · rw [if_pos inPiece, if_neg earlier, if_pos inPiece, if_neg earlier, if_pos inPiece]
        · rw [if_neg inPiece, if_neg earlier, if_neg inPiece]

theorem Coherent.reading?_mapping (coherent : Coherent children before) {mapping : Mapping}
    (made : before.mapping = .ok mapping) (inText : place < before.output.endPosition) :
    mapping.reading? place = before.reading? place := by
  obtain ⟨sameSegments, sameSources, sameNames, _⟩ := coherent.mapping_eq_ok made
  have ordered : Segment.Ordered (Segment.latest before.segments.toList) := by
    rw [Segment.latest_of_sorted coherent.sorted]
    exact Segment.keepLast_ordered coherent.sorted
  rw [Mapping.reading?, reading?, sameSegments, sameSources, sameNames,
    Segment.reading?_eq_tracing, Segment.reading?_eq_tracing,
    Segment.tracing_prune inText ordered, Segment.tracing_latest coherent.sorted]

end Assembly

end SourceWeave
