import Mathlib.Data.List.Forall2
import SourceWeave.Proofs.Authored
import SourceWeave.Proofs.Outlines

/-!
Files that pass through. A text that is a source of its own is traced line by line where it is
copied. To give it the mapping that traces each of its lines to itself makes no difference, but for
the newline of an empty line, which that mapping does not trace.
-/

set_option autoImplicit false

namespace SourceWeave

theorem Segment.lastCovering_filter_line (keeps : Nat → Bool) (place : Position)
    (segments : List Segment) :
    lastCovering place (segments.filter fun segment => keeps segment.position.line) =
      if keeps place.line then lastCovering place segments else none := by
  split
  · rename_i kept
    apply lastCovering_filter
    intro segment _ covered
    rw [(covers_iff.mp covered).1, kept]
  · rename_i dropped
    apply lastCovering_eq_none
    intro segment member
    rw [Bool.eq_false_iff]
    intro covered
    have kept := (List.mem_filter.mp member).2
    rw [(covers_iff.mp covered).1] at kept
    exact dropped kept

section Locals

variable {text identity : String} {mapping : Mapping}
  (made : authoredMapping text identity = .ok mapping)

include made

theorem headOrigin_authored {start : Position} (numbered : start.line ≠ 0) (source : Nat) :
    mapping.headOrigin #[source] #[] start =
      if lineFilled text.toList start.line then some ⟨source, start.line, start.column, none⟩
      else none := by
  obtain ⟨sameSegments, _⟩ := Mapping.ofSegments_eq_ok made
  rw [Mapping.headOrigin, mapping.covering_eq, sameSegments,
    lastCovering_authoredSegments text numbered]
  split
  · by_cases atStart : start.column = 0
    · simp [Segment.traced, Location.relink, atStart]
    · simp [Segment.traced, Location.relink, Ne.symm atStart]
  · rfl

theorem Links.locals_authored {start : Position} (numbered : start.line ≠ 0) (stop : Position)
    (source : Nat) :
    (Links.mapped mapping #[source] #[]).locals start stop =
      ⟨start, if lineFilled text.toList start.line then
          some ⟨source, start.line, start.column, none⟩ else none⟩ ::
        ((furtherLines start stop).map fun place =>
          Segment.traced place source place.line 0).filter fun segment =>
            lineFilled text.toList segment.position.line := by
  obtain ⟨sameSegments, _⟩ := Mapping.ofSegments_eq_ok made
  rw [locals, headOrigin_authored made numbered]
  congr 1
  apply Segment.Ordered.eq_of_mem_iff
  · exact List.Pairwise.map _ (fun _ _ before => before)
      (List.Pairwise.filter _ mapping.pairwise_lt)
  · exact List.Pairwise.filter _
      (List.Pairwise.map _ (fun _ _ before => before) (furtherLines_pairwise start stop))
  intro segment
  rw [List.mem_map, List.mem_filter, List.mem_map, sameSegments]
  constructor
  · intro copied
    obtain ⟨original, member, isSegment⟩ := copied
    obtain ⟨isAuthored, inside⟩ := List.mem_filter.mp member
    obtain ⟨index, line, isLine, filled, isOriginal⟩ := mem_authoredSegments.mp isAuthored
    rw [decide_eq_true_eq, isOriginal] at inside
    obtain ⟨behind, before⟩ := inside
    rw [Position.lt_iff] at behind
    simp only [Segment.traced] at behind
    have further : (⟨index + 1, 0⟩ : Position) ∈ furtherLines start stop :=
      mem_furtherLines.mpr ⟨by simp only; omega, rfl, before⟩
    rw [← isSegment, isOriginal]
    exact ⟨⟨_, further, rfl⟩, lineFilled_iff.mpr ⟨line, isLine, filled⟩⟩
  · intro further
    obtain ⟨⟨place, isFurther, isSegment⟩, filled⟩ := further
    rw [← isSegment] at filled
    obtain ⟨behind, atStart, before⟩ := mem_furtherLines.mp isFurther
    obtain ⟨line, isLine, isFilled⟩ := lineFilled_iff.mp filled
    have isPlace : place = ⟨place.line - 1 + 1, 0⟩ := Position.ext (by simp only; omega) atStart
    refine ⟨Segment.traced place 0 place.line 0, List.mem_filter.mpr ⟨?_, ?_⟩, isSegment⟩
    · refine mem_authoredSegments.mpr ⟨place.line - 1, line, isLine, isFilled, ?_⟩
      rw [← isPlace, Nat.sub_add_cancel (by omega)]
    · exact decide_eq_true ⟨Or.inl behind, before⟩

theorem Links.reading?_locals_authored (sources : Array SourceRecord) (names : Array String)
    {start stop place : Position} (numbered : start.line ≠ 0) (source : Nat) :
    Segment.reading? sources names ((Links.mapped mapping #[source] #[]).locals start stop) place =
      if lineFilled text.toList place.line then
        Segment.reading? sources names ((Links.own source).locals start stop) place
      else none := by
  rw [Segment.reading?, Segment.reading?, locals_authored made numbered, Links.locals,
    Segment.lastCovering_cons, Segment.lastCovering_cons,
    Segment.lastCovering_filter_line (lineFilled text.toList)]
  by_cases sameLine : start.line = place.line
  · rw [sameLine]
    by_cases filled : lineFilled text.toList place.line = true
    · rw [if_pos filled, if_pos filled, if_pos filled]
      rfl
    · rw [if_neg filled, if_neg filled, if_neg filled, Option.none_or]
      split <;> rfl
  · have uncovered (origin : Option Location) : Segment.covers place ⟨start, origin⟩ = false :=
      Bool.eq_false_iff.mpr fun covered => sameLine (Segment.covers_iff.mp covered).1
    simp only [Segment.traced, uncovered, Bool.false_eq_true, if_false, Option.or_none]
    split <;> rfl

end Locals

/-! ### Empty lines -/

theorem Utf16.exists_rest_of_between (start stop : Nat) (characters : List Char) :
    ∃ rest, characters = take start characters ++ (between start stop characters ++ rest) := by
  refine ⟨drop (stop - length (take start characters)) (drop start characters), ?_⟩
  rw [between, take_append_drop, take_append_drop]

/-- Whether each of some characters, read from a place on, is a newline that is all of its line. -/
def Position.emptyLines (place : Position) : List Char → List Bool
  | [] => []
  | character :: rest =>
      decide (character = '\n' ∧ place.column = 0) :: emptyLines (place.next character) rest

theorem Position.length_emptyLines (place : Position) (characters : List Char) :
    (place.emptyLines characters).length = characters.length := by
  induction characters generalizing place with
  | nil => rfl
  | cons character rest ih => rw [emptyLines, List.length_cons, ih, List.length_cons]

def Piece.emptyLines (children : List TracedText) (index : Nat) : Piece → List Bool
  | .copy other start stop =>
      (children[other]?).elim [] fun child =>
        let copied := Utf16.between start stop child.text.toList
        if other = index then
          (Position.first.behind (Utf16.take start child.text.toList)).emptyLines copied
        else copied.map fun _ => false
  | .insert text _ => text.toList.map fun _ => false

theorem Piece.length_emptyLines (children : List TracedText) (index : Nat) (piece : Piece) :
    (piece.emptyLines children index).length = (piece.characters children).length := by
  cases piece with
  | insert text marked => exact List.length_map _
  | copy other start stop =>
      rw [emptyLines, characters]
      cases children[other]? with
      | none => rfl
      | some child =>
          rw [Option.elim_some, Option.elim_some]
          by_cases same : other = index
          · simp only [if_pos same, Position.length_emptyLines]
          · simp only [if_neg same, List.length_map]

theorem nil_mem_dropLast_splitOn {lead : List Char}
    (atStart : (Position.first.behind lead).column = 0) (rest : List Char) :
    [] ∈ ((lead ++ '\n' :: rest).splitOn '\n').dropLast := by
  have split (front back : List Char) : (front ++ '\n' :: back).splitOn '\n' =
      front.splitOn '\n' ++ back.splitOn '\n' := by
    rw [List.splitOn_eq_splitOnP, List.splitOn_eq_splitOnP, List.splitOn_eq_splitOnP]
    exact List.splitOnP_append_cons front back (beq_self_eq_true '\n')
  rw [split, List.dropLast_append_of_ne_nil (List.splitOn_ne_nil _ _), List.mem_append]
  left
  rcases List.eq_nil_or_concat lead with isNil | ⟨front, last, isConcat⟩
  · rw [isNil]
    exact List.mem_singleton_self []
  · rw [List.concat_eq_append] at isConcat
    have newline : last = '\n' := by
      by_contra other
      have wide := Utf16.width_pos last
      rw [isConcat, Position.behind_append, Position.behind_cons, Position.behind_nil,
        Position.next, if_neg other] at atStart
      simp only at atStart
      omega
    rw [isConcat, newline, split, List.mem_append]
    exact Or.inr (List.mem_singleton_self [])

theorem Position.emptyLines_eq_false {characters lead taken rest : List Char}
    (whole : characters = lead ++ (taken ++ rest))
    (filled : ∀ line ∈ (characters.splitOn '\n').dropLast, line ≠ []) :
    ∀ flag ∈ (first.behind lead).emptyLines taken, flag = false := by
  induction taken generalizing lead with
  | nil =>
      intro flag impossible
      cases impossible
  | cons character taken ih =>
      have wholeNext : characters = (lead ++ [character]) ++ (taken ++ rest) := by
        rw [whole, List.append_assoc]
        rfl
      have further := ih wholeNext
      rw [behind_append] at further
      intro flag member
      rcases List.mem_cons.mp member with isFirst | inRest
      · rw [isFirst]
        apply decide_eq_false
        intro emptyLine
        rw [whole, emptyLine.1] at filled
        exact filled [] (nil_mem_dropLast_splitOn emptyLine.2 _) rfl
      · exact further flag inRest

theorem Piece.emptyLines_eq_false {children : List TracedText} {index : Nat} {child : TracedText}
    (isChild : children[index]? = some child)
    (filled : ∀ line ∈ (child.text.toList.splitOn '\n').dropLast, line ≠ []) (piece : Piece) :
    ∀ flag ∈ piece.emptyLines children index, flag = false := by
  cases piece with
  | insert text marked => exact fun flag member => List.eq_of_mem_map_const member
  | copy other start stop =>
      rw [emptyLines]
      cases isOther : children[other]? with
      | none =>
          intro flag impossible
          cases impossible
      | some copied =>
          rw [Option.elim_some]
          by_cases isIndex : other = index
          · rw [isIndex, isChild, Option.some.injEq] at isOther
            obtain ⟨rest, whole⟩ := Utf16.exists_rest_of_between start stop copied.text.toList
            rw [isOther] at filled
            simp only [if_pos isIndex]
            exact Position.emptyLines_eq_false whole filled
          · simp only [if_neg isIndex]
            exact fun flag member => List.eq_of_mem_map_const member

def TracedChar.silencedIf (silenced : Bool) (told : TracedChar) : TracedChar :=
  if silenced then silent told.character else told

namespace Cell

def silencedIf (silenced : Bool) (cell : Cell) : Cell :=
  if silenced then silent cell.character else cell

theorem traced_silencedIf (silenced : Bool) (cell : Cell) :
    (cell.silencedIf silenced).traced = cell.traced.silencedIf silenced := by
  cases silenced <;> rfl

theorem length_along (account : Position → Option Mapping.Reading) (place : Position)
    (characters : List Char) : (along account place characters).length = characters.length := by
  rw [← List.length_map character, map_character_along]

theorem zipWith_silencedIf_of_false {silenced : List Bool} {cells : List Cell}
    (sameLength : silenced.length = cells.length) (never : ∀ flag ∈ silenced, flag = false) :
    List.zipWith silencedIf silenced cells = cells := by
  induction cells generalizing silenced with
  | nil => exact List.zipWith_nil_right
  | cons cell rest ih =>
      cases silenced with
      | nil => cases sameLength
      | cons flag flags =>
          rw [List.zipWith_cons_cons, never flag List.mem_cons_self,
            ih (Nat.succ.inj sameLength) fun other member =>
              never other (List.mem_cons_of_mem flag member)]
          rfl

theorem zipWith_silencedIf_silent {silenced : List Bool} {characters : List Char}
    (sameLength : silenced.length = characters.length) :
    List.zipWith silencedIf silenced (characters.map silent) = characters.map silent := by
  induction characters generalizing silenced with
  | nil => exact List.zipWith_nil_right
  | cons character rest ih =>
      cases silenced with
      | nil => cases sameLength
      | cons flag flags =>
          rw [List.map_cons, List.zipWith_cons_cons, ih (Nat.succ.inj sameLength)]
          cases flag <;> rfl

theorem along_filled (account : Position → Option Mapping.Reading)
    {characters lead taken rest : List Char} (whole : characters = lead ++ (taken ++ rest))
    {place : Position} (onLine : place.line = (Position.first.behind lead).line) :
    along (fun between => if lineFilled characters between.line then account between else none)
        place taken =
      List.zipWith silencedIf ((Position.first.behind lead).emptyLines taken)
        (along account place taken) := by
  induction taken generalizing lead place with
  | nil => rfl
  | cons character taken ih =>
      have filled := lineFilled_behind lead character (taken ++ rest)
      rw [← List.cons_append, ← whole, ← onLine] at filled
      have wholeNext : characters = (lead ++ [character]) ++ (taken ++ rest) := by
        rw [whole, List.append_assoc]
        rfl
      have behindNext : Position.first.behind (lead ++ [character]) =
          (Position.first.behind lead).next character := by
        rw [Position.behind_append]
        rfl
      have onNext : (place.next character).line =
          (Position.first.behind (lead ++ [character])).line := by
        rw [behindNext, Position.next, Position.next]
        split <;> simp only [onLine]
      rw [along, along, Position.emptyLines, List.zipWith_cons_cons, ih wholeNext onNext,
        behindNext]
      congr 1
      by_cases emptyLine : character = '\n' ∧ (Position.first.behind lead).column = 0
      · have notFilled : ¬ lineFilled characters place.line = true :=
          fun isFilled => filled.mp isFilled emptyLine
        rw [decide_eq_true emptyLine]
        refine ext rfl ?_
        intro distance
        simp [told, silencedIf, silent, notFilled]
      · rw [decide_eq_false emptyLine]
        refine ext rfl ?_
        intro distance
        simp [told, silencedIf, filled.mpr emptyLine]

end Cell

/-- What the mapping of a file says of copied characters is what the file says, but for empty
lines. -/
theorem Links.along_locals_authored {text identity : String} {mapping : Mapping}
    (made : authoredMapping text identity = .ok mapping) (sources : Array SourceRecord)
    (names : Array String) (source start stop : Nat) :
    Cell.along
        (Segment.reading? sources names ((Links.mapped mapping #[source] #[]).locals
          (Position.ofOffset text.toList start) (Position.ofOffset text.toList stop)))
        (Position.ofOffset text.toList start) (Utf16.between start stop text.toList) =
      List.zipWith Cell.silencedIf
        ((Position.first.behind (Utf16.take start text.toList)).emptyLines
          (Utf16.between start stop text.toList))
        (Cell.along
          (Segment.reading? sources names ((Links.own source).locals
            (Position.ofOffset text.toList start) (Position.ofOffset text.toList stop)))
          (Position.ofOffset text.toList start) (Utf16.between start stop text.toList)) := by
  have numbered : (Position.ofOffset text.toList start).line ≠ 0 := by
    rw [Position.ofOffset_line]
    exact Position.behind_line_ne_zero _
  obtain ⟨rest, whole⟩ := Utf16.exists_rest_of_between start stop text.toList
  rw [← Cell.along_filled _ whole (Position.ofOffset_line text.toList start)]
  apply Cell.along_eq_iff.mpr
  intro between _ _
  exact reading?_locals_authored made sources names numbered source

/-! ### Two runs -/

theorem Links.Fits.unique {sources : Array SourceRecord} {names : Array String}
    {links others : Links} {provenance : Provenance}
    (fits : links.Fits sources names provenance) (again : others.Fits sources names provenance)
    (distinctSources : (sources.toList.map SourceRecord.identity).Nodup)
    (distinctNames : names.toList.Nodup) : links = others := by
  have sourceUnique {identity : Option String} {first second : Nat}
      (known : (sources[first]?).map SourceRecord.identity = some identity)
      (knownAgain : (sources[second]?).map SourceRecord.identity = some identity) :
      first = second := by
    obtain ⟨entry, found, isIdentity⟩ := Option.map_eq_some_iff.mp known
    obtain ⟨other, foundAgain, isAgain⟩ := Option.map_eq_some_iff.mp knownAgain
    exact Segment.index_eq_of_key distinctSources found foundAgain (isIdentity.trans isAgain.symm)
  have entryUnique : Relator.RightUnique fun (entry : SourceRecord) (index : Nat) =>
      (sources[index]?).map SourceRecord.identity = some entry.identity :=
    fun _ _ _ known knownAgain => sourceUnique known knownAgain
  have nameUnique : Relator.RightUnique fun (name : String) (index : Nat) =>
      names[index]? = some name := by
    intro name first second found foundAgain
    rw [← List.map_id names.toList] at distinctNames
    exact Segment.index_eq_of_key distinctNames found foundAgain rfl
  cases fits with
  | unknown =>
      cases again
      rfl
  | own known =>
      cases again with
      | own knownAgain => rw [sourceUnique known knownAgain]
  | mapped sourcesKnown namesKnown =>
      cases again with
      | mapped sourcesAgain namesAgain =>
          have sameSources := List.right_unique_forall₂' entryUnique sourcesKnown sourcesAgain
          have sameNames := List.right_unique_forall₂' nameUnique namesKnown namesAgain
          rw [Array.toList_inj.mp sameSources, Array.toList_inj.mp sameNames]

theorem Links.Fits.exists_source {text identity : String} {mapping : Mapping}
    (made : authoredMapping text identity = .ok mapping) {sources : Array SourceRecord}
    {names : Array String} {links others : Links} (fits : links.Fits sources names (.own identity))
    (again : others.Fits sources names (.mapped mapping))
    (distinctSources : (sources.toList.map SourceRecord.identity).Nodup)
    (distinctNames : names.toList.Nodup) :
    ∃ source, links = .own source ∧ others = .mapped mapping #[source] #[] := by
  obtain ⟨_, sameSources, sameNames, _⟩ := Mapping.ofSegments_eq_ok made
  cases fits with
  | @own source _ known =>
      refine ⟨source, rfl, again.unique (.mapped ?_ ?_) distinctSources distinctNames⟩
      · rw [sameSources]
        exact .cons known .nil
      · rw [sameNames]
        exact .nil

/-- A file contributes the same as the mapping of it. -/
theorem TracedText.contribution_authored {children : List TracedText} {index : Nat}
    {text identity : String} {mapping : Mapping}
    (isChild : children[index]? = some ⟨text, .own identity⟩)
    (made : authoredMapping text identity = .ok mapping) :
    children.map contribution = (children.set index ⟨text, .mapped mapping⟩).map contribution := by
  obtain ⟨_, sameSources, sameNames, _⟩ := Mapping.ofSegments_eq_ok made
  have sameContribution : (TracedText.mk text (.mapped mapping)).contribution =
      (TracedText.mk text (.own identity)).contribution := by
    simp [contribution, entries, nameEntries, sameSources, sameNames, Provenance.isTracked]
  apply List.ext_getElem?
  intro other
  rw [List.map_set, List.getElem?_set, List.getElem?_map, List.length_map]
  by_cases isIndex : index = other
  · rw [if_pos isIndex, ← isIndex, if_pos (List.getElem?_eq_some_iff.mp isChild).1, isChild,
      Option.map_some, sameContribution]
  · rw [if_neg isIndex]

namespace Assembly

theorem Copied.along_reading? {children : List TracedText} {before after : Assembly}
    {child : TracedText} {links : Links} {index start stop : Nat}
    (copied : Copied child links index start stop before after)
    (coherent : Coherent children before) :
    Cell.along after.reading? before.output.endPosition
        (Utf16.between start stop child.text.toList) =
      Cell.along
        (Segment.reading? after.sources.entries after.names.names
          (links.locals (Position.ofOffset child.text.toList start)
            (Position.ofOffset child.text.toList stop)))
        (Position.ofOffset child.text.toList start)
        (Utf16.between start stop child.text.toList) := by
  have moved := Cell.along_relocate
    (Segment.reading? after.sources.entries after.names.names
      (links.locals (Position.ofOffset child.text.toList start)
        (Position.ofOffset child.text.toList stop)))
    (Position.ofOffset child.text.toList start) (Position.le_refl before.output.endPosition)
    (Utf16.between start stop child.text.toList)
  rw [Position.relocate_self] at moved
  rw [← moved]
  apply Cell.along_eq_iff.mpr
  intro place fromTarget inCopy
  rw [← copied.endPosition_eq coherent] at inCopy
  exact copied.reading?_of_inCopy coherent fromTarget inCopy

theorem Coherent.along_insert {children : List TracedText} {before : Assembly}
    (coherent : Coherent children before) (text : String) (marked : Bool) :
    Cell.along (before.insert true text marked).reading? before.output.endPosition text.toList =
      text.toList.map Cell.silent := by
  apply Cell.along_silent
  intro place inserted _
  exact coherent.reading?_insert_of_le text marked inserted

theorem Coherent.along_of_run {children : List TracedText} {before after : Assembly}
    (coherent : Coherent children before) {pieces : List Piece}
    (ran : pieces.foldlM (Assembly.step true (children.map Strand.ofTracedText).toArray) before =
      .ok after) {place : Position} {characters : List Char}
    (inFront : place.behind characters = before.output.endPosition) :
    Cell.along after.reading? place characters = Cell.along before.reading? place characters := by
  apply Cell.along_eq_iff.mpr
  intro between _ earlier
  rw [inFront] at earlier
  exact coherent.reading?_run_of_lt ran earlier

section Runs

variable {children : List TracedText} {index : Nat} {text identity : String} {mapping : Mapping}
  {left right leftAfter rightAfter : Assembly}
  (isChild : children[index]? = some ⟨text, .own identity⟩)
  (made : authoredMapping text identity = .ok mapping)

include isChild made

theorem along_step (twin : Twin left right) (leftCoherent : Coherent children left)
    (rightCoherent : Coherent (children.set index ⟨text, .mapped mapping⟩) right) {piece : Piece}
    (leftStepped : left.step true (children.map Strand.ofTracedText).toArray piece =
      .ok leftAfter)
    (rightStepped : right.step true ((children.set index ⟨text, .mapped mapping⟩).map
      Strand.ofTracedText).toArray piece = .ok rightAfter) :
    Cell.along rightAfter.reading? left.output.endPosition (piece.characters children) =
      List.zipWith Cell.silencedIf (piece.emptyLines children index)
        (Cell.along leftAfter.reading? left.output.endPosition (piece.characters children)) := by
  have same := TracedText.contribution_authored isChild made
  have twinAfter := twin.step same leftCoherent rightCoherent leftStepped rightStepped
  have coherentAfter := leftCoherent.step leftStepped
  cases piece with
  | insert inserted marked =>
      have rightSilent := rightCoherent.along_insert inserted marked
      rw [← twin.output] at rightSilent
      cases leftStepped
      cases rightStepped
      rw [Piece.characters, leftCoherent.along_insert, rightSilent, Cell.zipWith_silencedIf_silent]
      exact List.length_map _
  | copy other start stop =>
      obtain ⟨child, links, isLeft, copied, _⟩ := copy_eq_ok leftCoherent.linked leftStepped
      obtain ⟨twinChild, twinLinks, isRight, again, _⟩ :=
        copy_eq_ok rightCoherent.linked rightStepped
      have fits := copied.fits
      have fitsAgain := again.fits
      rw [← twinAfter.sources, ← twinAfter.names] at fitsAgain
      have leftAlong := copied.along_reading? leftCoherent
      have rightAlong := again.along_reading? rightCoherent
      rw [← twinAfter.sources, ← twinAfter.names, ← twin.output] at rightAlong
      rw [Piece.characters, Piece.emptyLines, isLeft, Option.elim_some, Option.elim_some,
        leftAlong]
      by_cases isIndex : other = index
      · have within := (List.getElem?_eq_some_iff.mp isChild).1
        rw [isIndex, isChild, Option.some.injEq] at isLeft
        rw [isIndex, List.getElem?_set_self within, Option.some.injEq] at isRight
        rw [← isLeft] at fits ⊢
        rw [← isRight] at fitsAgain rightAlong
        obtain ⟨source, isOwn, isMapped⟩ := Links.Fits.exists_source made fits fitsAgain
          coherentAfter.distinctSources coherentAfter.distinctNames
        simp only [if_pos isIndex]
        rw [rightAlong, isOwn, isMapped, Links.along_locals_authored made]
      · rw [List.getElem?_set_ne (Ne.symm isIndex), isLeft, Option.some.injEq] at isRight
        rw [← isRight] at fitsAgain rightAlong
        have sameLinks := fitsAgain.unique fits coherentAfter.distinctSources
          coherentAfter.distinctNames
        rw [rightAlong, sameLinks]
        simp only [if_neg isIndex]
        refine (Cell.zipWith_silencedIf_of_false ?_ ?_).symm
        · rw [List.length_map, Cell.length_along]
        · exact fun flag member => List.eq_of_mem_map_const member

theorem along_run (twin : Twin left right) (leftCoherent : Coherent children left)
    (rightCoherent : Coherent (children.set index ⟨text, .mapped mapping⟩) right)
    {pieces : List Piece}
    (leftRan : pieces.foldlM (Assembly.step true (children.map Strand.ofTracedText).toArray) left =
      .ok leftAfter)
    (rightRan : pieces.foldlM (Assembly.step true
      ((children.set index ⟨text, .mapped mapping⟩).map Strand.ofTracedText).toArray) right =
      .ok rightAfter) :
    Cell.along rightAfter.reading? left.output.endPosition
        (pieces.flatMap (Piece.characters children)) =
      List.zipWith Cell.silencedIf (pieces.flatMap (Piece.emptyLines children index))
        (Cell.along leftAfter.reading? left.output.endPosition
          (pieces.flatMap (Piece.characters children))) := by
  induction pieces generalizing left right with
  | nil => rfl
  | cons piece rest ih =>
      rw [List.foldlM_cons] at leftRan rightRan
      obtain ⟨leftMiddle, leftStepped, leftRan⟩ := exists_of_bind_eq_ok leftRan
      obtain ⟨rightMiddle, rightStepped, rightRan⟩ := exists_of_bind_eq_ok rightRan
      have leftCoherentMiddle := leftCoherent.step leftStepped
      have rightCoherentMiddle := rightCoherent.step rightStepped
      have twinMiddle := twin.step (TracedText.contribution_authored isChild made) leftCoherent
        rightCoherent leftStepped rightStepped
      have landed := leftCoherent.endPosition_step leftStepped
      have further := ih twinMiddle leftCoherentMiddle rightCoherentMiddle leftRan rightRan
      have stepped := along_step isChild made twin leftCoherent rightCoherent leftStepped
        rightStepped
      have leftKept := leftCoherentMiddle.along_of_run leftRan landed.symm
      have rightKept := rightCoherentMiddle.along_of_run rightRan
        (twinMiddle.output ▸ landed.symm)
      have sameLength : (piece.emptyLines children index).length =
          (Cell.along leftMiddle.reading? left.output.endPosition
            (piece.characters children)).length := by
        rw [piece.length_emptyLines, Cell.length_along]
      rw [List.flatMap_cons, List.flatMap_cons, Cell.along_append, Cell.along_append, leftKept,
        rightKept, List.zipWith_append sameLength, ← stepped, ← landed, further]

end Runs

end Assembly

theorem exists_run_of_assemble {children : List TracedText} {pieces : List Piece}
    {woven : TracedText} (assembled : assemble children pieces true = .ok woven) :
    ∃ assembly : Assembly,
      pieces.foldlM (Assembly.step true (children.map Strand.ofTracedText).toArray)
          { links := Array.replicate children.length none } = .ok assembly ∧
        (woven.provenance.isTracked = true →
          woven.cells = Cell.along assembly.reading? Position.first woven.text.toList) := by
  obtain ⟨assembly, ran, assembled⟩ := exists_of_bind_eq_ok assembled
  rw [List.size_toArray, List.length_map] at ran
  have coherent := (Assembly.coherent_initial children).run ran
  refine ⟨assembly, ran, ?_⟩
  intro tracked
  split at assembled
  · obtain ⟨mapping, made, assembled⟩ := exists_of_bind_eq_ok assembled
    cases assembled
    apply Cell.along_eq_iff.mpr
    intro place _ inText
    rw [← coherent.endPosition_eq] at inText
    exact coherent.reading?_mapping made inText
  · cases assembled
    cases tracked

theorem TracedText.annotated_silenced {left right : TracedText} {silenced : List Bool}
    (cells : right.cells = List.zipWith Cell.silencedIf silenced left.cells) :
    right.annotated = List.zipWith TracedChar.silencedIf silenced left.annotated := by
  rw [annotated_eq_map_cells, annotated_eq_map_cells, cells, List.map_zipWith,
    List.zipWith_map_right]
  simp only [Cell.traced_silencedIf]

theorem TracedText.cells_of_untracked {woven : TracedText}
    (untracked : woven.provenance.isTracked = false) :
    woven.cells = woven.text.toList.map Cell.silent :=
  Cell.along_silent fun place _ _ => reading?_of_untracked untracked place

theorem TracedText.zipWith_silencedIf_of_untracked {woven : TracedText} {silenced : List Bool}
    (untracked : woven.provenance.isTracked = false)
    (sameLength : silenced.length = woven.text.toList.length) :
    List.zipWith Cell.silencedIf silenced woven.cells = woven.cells := by
  rw [cells_of_untracked untracked, Cell.zipWith_silencedIf_silent sameLength]

theorem Piece.length_flatMap_emptyLines (children : List TracedText) (index : Nat)
    (pieces : List Piece) :
    (pieces.flatMap (emptyLines children index)).length =
      (pieces.flatMap (characters children)).length := by
  rw [List.length_flatMap, List.length_flatMap]
  congr 1
  apply List.map_congr_left
  intro piece _
  exact piece.length_emptyLines children index

section Authored

variable {children : List TracedText} {index : Nat} {text identity : String} {mapping : Mapping}
  {pieces : List Piece} {left right : TracedText}
  (isChild : children[index]? = some ⟨text, .own identity⟩)
  (made : authoredMapping text identity = .ok mapping)

include isChild made

theorem cells_assemble_authored (isLeft : assemble children pieces true = .ok left)
    (isRight : assemble (children.set index ⟨text, .mapped mapping⟩) pieces true = .ok right) :
    right.cells = List.zipWith Cell.silencedIf (pieces.flatMap (Piece.emptyLines children index))
      left.cells := by
  have same := TracedText.contribution_authored isChild made
  have leftAssembled := assembled_of_assemble isLeft
  have rightAssembled := assembled_of_assemble isRight
  have sameTracked : right.provenance.isTracked = left.provenance.isTracked := by
    rw [rightAssembled.composed.isTracked, leftAssembled.composed.isTracked,
      Piece.isTracked_congr same]
  have sameCharacters : right.text.toList = left.text.toList := by
    rw [rightAssembled.characters, leftAssembled.characters,
      Piece.characters_congr (TracedText.map_text_of_contribution same)]
  cases tracked : left.provenance.isTracked with
  | false =>
      rw [TracedText.zipWith_silencedIf_of_untracked tracked]
      · rw [TracedText.cells_of_untracked tracked,
          TracedText.cells_of_untracked (sameTracked.trans tracked), sameCharacters]
      · rw [Piece.length_flatMap_emptyLines, leftAssembled.characters]
  | true =>
      obtain ⟨leftAssembly, leftRan, leftCells⟩ := exists_run_of_assemble isLeft
      obtain ⟨rightAssembly, rightRan, rightCells⟩ := exists_run_of_assemble isRight
      rw [leftCells tracked, rightCells (sameTracked.trans tracked), sameCharacters,
        leftAssembled.characters]
      rw [List.length_set] at rightRan
      have rightCoherent := Assembly.coherent_initial (children.set index ⟨text, .mapped mapping⟩)
      rw [List.length_set] at rightCoherent
      exact Assembly.along_run isChild made (Assembly.twin_initial children.length)
        (Assembly.coherent_initial children) rightCoherent leftRan rightRan

end Authored

theorem assemble_authored_unseen {children : List TracedText} {index : Nat}
    {text identity : String} (isChild : children[index]? = some ⟨text, .own identity⟩)
    (mapping : Mapping) (pieces : List Piece) :
    assemble (children.set index ⟨text, .mapped mapping⟩) pieces false =
      assemble children pieces false := by
  have seenAs : TracedText.seen false ⟨text, .own identity⟩ =
      TracedText.seen false ⟨text, .mapped mapping⟩ := rfl
  have sameSeen : (children.set index ⟨text, .mapped mapping⟩).map (TracedText.seen false) =
      children.map (TracedText.seen false) := by
    obtain ⟨_, isAt⟩ := List.getElem?_eq_some_iff.mp isChild
    rw [List.map_set, ← seenAs, ← List.map_set, ← isAt, List.set_getElem_self]
  rw [assemble_eq_seen, assemble_eq_seen false children, sameSeen]

/-- A file that is a source of its own and the same file told by its mapping can both be assembled
or fail alike, and give the same text and the same tables. The mapping says nothing of the newlines
of empty lines, and of all other characters what the file says. Without empty lines the same comes
of both. -/
theorem assemble_authored {children : List TracedText} {index : Nat} {text identity : String}
    {mapping : Mapping} (isChild : children[index]? = some ⟨text, .own identity⟩)
    (made : authoredMapping text identity = .ok mapping) (pieces : List Piece) (withMap : Bool) :
    let others := children.set index ⟨text, .mapped mapping⟩
    (assemble others pieces withMap).map TracedText.outline =
        (assemble children pieces withMap).map TracedText.outline ∧
      ∀ left right, assemble children pieces withMap = .ok left →
        assemble others pieces withMap = .ok right →
          right.annotated = List.zipWith TracedChar.silencedIf
              (pieces.flatMap (Piece.emptyLines children index)) left.annotated ∧
            ((∀ line ∈ (text.toList.splitOn '\n').dropLast, line ≠ []) → right = left) := by
  intro others
  have same := TracedText.contribution_authored isChild made
  refine ⟨map_outline_assemble same.symm pieces withMap, ?_⟩
  intro left right isLeft isRight
  cases withMap with
  | false =>
      have unseen := assemble_authored_unseen isChild mapping pieces
      have sameWoven : right = left := Except.ok.inj (isRight.symm.trans (unseen.trans isLeft))
      have untracked : left.provenance.isTracked = false := by
        rw [← (canonical_of_assemble isLeft).2]
        rfl
      refine ⟨TracedText.annotated_silenced ?_, fun _ => sameWoven⟩
      rw [assemble_eq_seen] at isLeft
      rw [sameWoven, TracedText.zipWith_silencedIf_of_untracked untracked]
      rw [Piece.length_flatMap_emptyLines, (assembled_of_assemble isLeft).characters,
        Piece.characters_congr (TracedText.map_text_seen false children)]
  | true =>
      have cells := cells_assemble_authored isChild made isLeft isRight
      refine ⟨TracedText.annotated_silenced cells, ?_⟩
      intro filled
      have leftAssembled := assembled_of_assemble isLeft
      have rightComposed := (assembled_of_assemble isRight).composed
      rw [← Piece.isTracked_congr same, ← Piece.entries_congr same,
        ← Piece.nameEntries_congr same] at rightComposed
      apply rightComposed.unique_of_cells leftAssembled.composed
      rw [cells]
      apply Cell.zipWith_silencedIf_of_false
      · rw [Piece.length_flatMap_emptyLines, TracedText.cells, Cell.length_along,
          leftAssembled.characters]
      · intro flag member
        obtain ⟨piece, _, inPiece⟩ := List.mem_flatMap.mp member
        exact piece.emptyLines_eq_false isChild filled flag inPiece

theorem assemble_authored_overlapping :
    let pieces : List Piece :=
      [.copy 0 0 3, .insert "Q" true, .copy 0 4 6, .copy 0 2 7, .copy 0 7 7]
    (∃ mapping left right, authoredMapping "a\n\n😀b\n" "f" = .ok mapping ∧
        assemble [⟨"a\n\n😀b\n", .own "f"⟩] pieces true = .ok left ∧
        assemble [⟨"a\n\n😀b\n", .mapped mapping⟩] pieces true = .ok right ∧
        left.text = "a\n\nQ😀b\n😀b\n" ∧
        right.annotated = List.zipWith TracedChar.silencedIf
          [false, false, true, false, false, false, true, false, false, false] left.annotated) ∧
      ∃ mapping woven, authoredMapping "ab\n😀b\n" "f" = .ok mapping ∧
        assemble [⟨"ab\n😀b\n", .own "f"⟩] pieces true = .ok woven ∧
        assemble [⟨"ab\n😀b\n", .mapped mapping⟩] pieces true = .ok woven := by
  intro pieces
  have both (text : String) (succeeds : (assemble [⟨text, .own "f"⟩] pieces true).isOk = true) :
      ∃ mapping left right, authoredMapping text "f" = .ok mapping ∧
        assemble [⟨text, .own "f"⟩] pieces true = .ok left ∧
        assemble [⟨text, .mapped mapping⟩] pieces true = .ok right ∧
        right.annotated = List.zipWith TracedChar.silencedIf
          (pieces.flatMap (Piece.emptyLines [⟨text, .own "f"⟩] 0)) left.annotated ∧
        ((∀ line ∈ (text.toList.splitOn '\n').dropLast, line ≠ []) → right = left) := by
    obtain ⟨mapping, made⟩ := exists_authoredMapping text "f"
    obtain ⟨left, isLeft⟩ := exists_of_isOk succeeds
    have isChild : [TracedText.mk text (.own "f")][0]? = some ⟨text, .own "f"⟩ := rfl
    obtain ⟨sameOutline, alike⟩ := assemble_authored isChild made pieces true
    rw [isLeft] at sameOutline
    cases isRight : assemble [⟨text, .mapped mapping⟩] pieces true with
    | error cause =>
        rw [List.set_cons_zero, isRight] at sameOutline
        cases sameOutline
    | ok right =>
        exact ⟨mapping, left, right, made, isLeft, isRight, alike left right isLeft isRight⟩
  constructor
  · obtain ⟨mapping, left, right, made, isLeft, isRight, annotated, _⟩ :=
      both "a\n\n😀b\n" (by decide +kernel)
    have isText : (assemble [⟨"a\n\n😀b\n", .own "f"⟩] pieces true).toOption.map
        TracedText.text = some "a\n\nQ😀b\n😀b\n" := by decide +kernel
    rw [isLeft] at isText
    have flags : pieces.flatMap (Piece.emptyLines [⟨"a\n\n😀b\n", .own "f"⟩] 0) =
        [false, false, true, false, false, false, true, false, false, false] := by decide +kernel
    rw [flags] at annotated
    exact ⟨mapping, left, right, made, isLeft, isRight, Option.some.inj isText, annotated⟩
  · obtain ⟨mapping, left, right, made, isLeft, isRight, _, same⟩ :=
      both "ab\n😀b\n" (by decide +kernel)
    rw [same (by decide +kernel)] at isRight
    exact ⟨mapping, left, made, isLeft, isRight⟩

end SourceWeave
