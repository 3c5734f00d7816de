import SourceWeave.Proofs.Outcomes
import SourceWeave.Proofs.Weaving

/-!
What woven texts bring to a join. Two lists of woven texts are alike if no join can
tell them apart; a join is alike the list of what it joins, and what comes of a join
is determined by it.
-/

set_option autoImplicit false

namespace SourceWeave

namespace SourceTree

theorem weaveJoined_eq_seen (withMap : Bool) (texts : List TracedText) :
    weaveJoined withMap texts = weaveJoined true (texts.map (TracedText.seen withMap)) := by
  have sameTexts : texts.map TracedText.text =
      (texts.map (TracedText.seen withMap)).map TracedText.text := by
    rw [List.map_map]
    rfl
  rw [weaveJoined, assemble_eq_seen, joinedPieces_congr sameTexts]
  rfl

end SourceTree

namespace TracedText

def joinedText (texts : List TracedText) : List Char :=
  texts.flatMap fun traced => traced.text.toList

def joinedReading? (place : Position) : Position → List TracedText → Option Mapping.Reading
  | _, [] => none
  | target, traced :: rest =>
      if place < target.behind traced.text.toList then
        (traced.reading? (place.relocate target Position.first)).map
          (Mapping.Reading.copiedFrom Position.first (place.relocate target Position.first))
      else
        joinedReading? place (target.behind traced.text.toList) rest

theorem joinedText_append (front back : List TracedText) :
    joinedText (front ++ back) = joinedText front ++ joinedText back :=
  List.flatMap_append

theorem joinedText_seen (withMap : Bool) (texts : List TracedText) :
    joinedText (texts.map (TracedText.seen withMap)) = joinedText texts :=
  List.flatMap_map _ _ texts

theorem joinedReading?_append {place target : Position} (fromTarget : target ≤ place)
    (front back : List TracedText) :
    joinedReading? place target (front ++ back) =
      if place < target.behind (joinedText front) then joinedReading? place target front
      else joinedReading? place (target.behind (joinedText front)) back := by
  induction front generalizing target with
  | nil =>
      rw [List.nil_append, joinedText, List.flatMap_nil, Position.behind_nil,
        if_neg (Position.not_lt.mpr fromTarget)]
  | cons traced rest ih =>
      have whole : joinedText (traced :: rest) = traced.text.toList ++ joinedText rest := rfl
      rw [List.cons_append, joinedReading?, joinedReading?, whole, Position.behind_append]
      by_cases inFirst : place < target.behind traced.text.toList
      · have inFront := Position.lt_of_lt_of_le inFirst
          (Position.le_behind _ (joinedText rest))
        rw [if_pos inFirst, if_pos inFront, if_pos inFirst]
      · rw [if_neg inFirst, if_neg inFirst, ih (Position.not_lt.mp inFirst)]

/-- Where texts stand makes no difference to what they say. -/
theorem joinedReading?_relocate {place target : Position} (fromTarget : target ≤ place)
    (origin : Position) (texts : List TracedText) :
    joinedReading? (place.relocate target origin) origin texts =
      joinedReading? place target texts := by
  induction texts generalizing target origin with
  | nil => rfl
  | cons traced rest ih =>
      have landed : (target.behind traced.text.toList).relocate target origin =
          origin.behind traced.text.toList := by
        rw [Position.relocate_behind _ _ _ _ (Position.le_refl target), Position.relocate_self]
      have sameSide : place.relocate target origin < origin.behind traced.text.toList ↔
          place < target.behind traced.text.toList := by
        rw [← landed]
        exact Position.relocate_lt_relocate_iff fromTarget (Position.le_behind _ _) _
      rw [joinedReading?, joinedReading?]
      by_cases inFirst : place < target.behind traced.text.toList
      · rw [if_pos (sameSide.mpr inFirst), if_pos inFirst,
          Position.relocate_relocate fromTarget]
      · have behind := Position.not_lt.mp inFirst
        rw [if_neg (fun moved => inFirst (sameSide.mp moved)), if_neg inFirst, ← landed,
          Position.relocate_through behind (Position.le_behind _ _), ih behind]

theorem map_copiedFrom_joinedReading? (place target : Position) (texts : List TracedText) :
    (joinedReading? place target texts).map (Mapping.Reading.copiedFrom target place) =
      joinedReading? place target texts := by
  by_cases atStart : place = target
  · subst atStart
    induction texts with
    | nil => rfl
    | cons traced rest ih =>
        rw [joinedReading?]
        split
        · rw [Position.relocate_self, Option.map_map]
          congr 1
          funext reading
          simp [Mapping.Reading.copiedFrom]
        · rename_i notInFirst
          have empty : place.behind traced.text.toList = place :=
            Position.le_antisymm (Position.not_lt.mp notInFirst) (Position.le_behind _ _)
          rw [empty]
          exact ih
  · rw [Mapping.Reading.copiedFrom_of_ne atStart, Option.map_id]
    rfl

theorem joinedReading?_of_untracked {texts : List TracedText}
    (untracked : (texts.any fun traced => traced.provenance.isTracked) = false)
    (place target : Position) : joinedReading? place target texts = none := by
  induction texts generalizing target with
  | nil => rfl
  | cons traced rest ih =>
      rw [List.any_cons, Bool.or_eq_false_iff] at untracked
      rw [joinedReading?, ih untracked.2, reading?_of_untracked untracked.1]
      split <;> rfl

theorem along_joinedReading? (target : Position) (texts : List TracedText) :
    Cell.along (fun place => joinedReading? place target texts) target (joinedText texts) =
      texts.flatMap TracedText.cells := by
  induction texts generalizing target with
  | nil => rfl
  | cons traced rest ih =>
      have whole : joinedText (traced :: rest) = traced.text.toList ++ joinedText rest := rfl
      have copied := Cell.along_relocate
        (fun place => (traced.reading? place).map
          (Mapping.Reading.copiedFrom Position.first place))
        Position.first (Position.le_refl target) traced.text.toList
      rw [Position.relocate_self, Cell.along_copiedFrom] at copied
      change _ = Cell.headed traced.cells at copied
      rw [traced.headed_cells] at copied
      rw [whole, Cell.along_append, List.flatMap_cons, ← copied,
        ← ih (target.behind traced.text.toList)]
      congr 1
      · apply Cell.along_eq_iff.mpr
        intro place _ inFirst
        rw [joinedReading?, if_pos inFirst]
      · apply Cell.along_eq_iff.mpr
        intro place fromNext _
        rw [joinedReading?, if_neg (Position.not_lt.mpr fromNext)]

/-! ### Alike -/

/-- No join can tell the lists apart. -/
structure Alike (left right : List TracedText) : Prop where
  text : joinedText left = joinedText right
  tracked : (left.any fun traced => traced.provenance.isTracked) =
    right.any fun traced => traced.provenance.isTracked
  entries : ∀ held, SourceRegistry.settle held (left.flatMap TracedText.entries) =
    SourceRegistry.settle held (right.flatMap TracedText.entries)
  names : ∀ held, enlist id held (left.flatMap TracedText.nameEntries) =
    enlist id held (right.flatMap TracedText.nameEntries)
  reading? : ∀ place target, target ≤ place → place < target.behind (joinedText left) →
    joinedReading? place target left = joinedReading? place target right

namespace Alike

variable {left middle right front back : List TracedText}

theorem refl (texts : List TracedText) : Alike texts texts :=
  ⟨rfl, rfl, fun _ => rfl, fun _ => rfl, fun _ _ _ _ => rfl⟩

theorem trans (first : Alike left middle) (second : Alike middle right) : Alike left right where
  text := first.text.trans second.text
  tracked := first.tracked.trans second.tracked
  entries := fun held => (first.entries held).trans (second.entries held)
  names := fun held => (first.names held).trans (second.names held)
  reading? := by
    intro place target fromTarget inText
    rw [first.reading? place target fromTarget inText]
    rw [first.text] at inText
    exact second.reading? place target fromTarget inText

theorem append (first : Alike left front) (second : Alike right back) :
    Alike (left ++ right) (front ++ back) where
  text := by rw [joinedText_append, joinedText_append, first.text, second.text]
  tracked := by rw [List.any_append, List.any_append, first.tracked, second.tracked]
  entries := by
    intro held
    rw [List.flatMap_append, List.flatMap_append, SourceRegistry.settle_append,
      SourceRegistry.settle_append, first.entries, second.entries]
  names := by
    intro held
    rw [List.flatMap_append, List.flatMap_append, enlist_append, enlist_append, first.names,
      second.names]
  reading? := by
    intro place target fromTarget inText
    rw [joinedReading?_append fromTarget, joinedReading?_append fromTarget, ← first.text]
    by_cases inFirst : place < target.behind (joinedText left)
    · rw [if_pos inFirst, if_pos inFirst, first.reading? place target fromTarget inFirst]
    · rw [if_neg inFirst, if_neg inFirst]
      rw [joinedText_append, Position.behind_append] at inText
      exact second.reading? place _ (Position.not_lt.mp inFirst) inText

theorem seen (alike : Alike left right) (withMap : Bool) :
    Alike (left.map (TracedText.seen withMap)) (right.map (TracedText.seen withMap)) := by
  cases withMap with
  | true =>
      rw [map_seen_true, map_seen_true]
      exact alike
  | false =>
      have leftUntracked := any_isTracked_unseen left
      have rightUntracked := any_isTracked_unseen right
      obtain ⟨leftEntries, leftNames⟩ := untracked_brings leftUntracked
      obtain ⟨rightEntries, rightNames⟩ := untracked_brings rightUntracked
      exact
        { text := by
            rw [joinedText_seen, joinedText_seen]
            exact alike.text
          tracked := leftUntracked.trans rightUntracked.symm
          entries := by
            intro held
            rw [leftEntries, rightEntries]
          names := by
            intro held
            rw [leftNames, rightNames]
          reading? := by
            intro place target _ _
            rw [joinedReading?_of_untracked leftUntracked,
              joinedReading?_of_untracked rightUntracked] }

end Alike

/-! ### What comes of a join -/

structure JoinOf (texts : List TracedText) (woven : TracedText) : Prop where
  text : woven.text.toList = joinedText texts
  provenance :
    ((texts.any fun traced => traced.provenance.isTracked) = false ∧
        woven.provenance = .unknown) ∨
      ((texts.any fun traced => traced.provenance.isTracked) = true ∧
        ∃ mapping, woven.provenance = .mapped mapping ∧
          mapping.sources.toList =
            SourceRegistry.settle [] (texts.flatMap TracedText.entries) ∧
          mapping.names.toList = enlist id [] (texts.flatMap TracedText.nameEntries) ∧
          mapping.file = none ∧ mapping.sourceRoot = none ∧
          Segment.Tidy mapping.sources.size mapping.names.size
            (Position.first.behind woven.text.toList) mapping.segments.toList)
  reading? : ∀ place, Position.first ≤ place →
    place < Position.first.behind woven.text.toList →
      woven.reading? place = joinedReading? place Position.first texts

theorem readings?_joinedPieces (children : List TracedText) (place target : Position) :
    Piece.readings? children place target (SourceTree.joinedPieces children) =
      joinedReading? place target children := by
  have fromIndex (texts : List TracedText) (index : Nat) (target : Position)
      (inPlace : ∀ (count : Nat) (traced : TracedText), texts[count]? = some traced →
        children[index + count]? = some traced) :
      Piece.readings? children place target ((texts.zipIdx index).map fun entry =>
        .copy entry.2 0 (utf16Length entry.1.text)) = joinedReading? place target texts := by
    induction texts generalizing index target with
    | nil => rfl
    | cons traced rest ih =>
        have isChild : children[index]? = some traced := inPlace 0 traced rfl
        have restInPlace (count : Nat) (other : TracedText) (found : rest[count]? = some other) :
            children[index + 1 + count]? = some other := by
          rw [Nat.add_assoc, Nat.add_comm 1]
          exact inPlace (count + 1) other found
        rw [List.zipIdx_cons, List.map_cons, Piece.readings?, joinedReading?, Piece.characters,
          isChild, Option.elim_some, utf16Length, Utf16.between_zero_length, Piece.reading?,
          isChild, Option.bind_some, Position.ofOffset_zero, ← ih (index + 1) _ restInPlace]
  rw [SourceTree.joinedPieces, List.mapIdx_eq_zipIdx_map]
  apply fromIndex
  intro count traced found
  rwa [Nat.zero_add]

theorem joinedPieces_aligned (children : List TracedText) :
    ∀ piece ∈ SourceTree.joinedPieces children, piece.Aligned children := by
  intro piece member
  obtain ⟨index, child, isChild, isPiece⟩ := SourceTree.exists_of_mem_joinedPieces member
  rw [isPiece]
  intro other isOther
  rw [isChild, Option.some.injEq] at isOther
  rw [← isOther]
  exact ⟨Utf16.aligned_zero _, Utf16.aligned_length _⟩

private theorem joinOf_of_weaveJoined_true {texts : List TracedText} {woven : TracedText}
    (joined : SourceTree.weaveJoined true texts = .ok woven) : JoinOf texts woven := by
  have assembled := assembled_of_assemble joined
  have sameText : (SourceTree.joinedPieces texts).flatMap (Piece.characters texts) =
      joinedText texts := by
    apply SourceTree.flatMap_joinedPieces
    intro index child isChild
    rw [Piece.characters, isChild, Option.elim_some, utf16Length, Utf16.between_zero_length]
  have sameEntries : (SourceTree.joinedPieces texts).flatMap (Piece.entries texts) =
      texts.flatMap TracedText.entries := by
    apply SourceTree.flatMap_joinedPieces
    intro index child isChild
    rw [Piece.entries, Piece.child?, isChild, Option.elim_some]
  have sameNames : (SourceTree.joinedPieces texts).flatMap (Piece.nameEntries texts) =
      texts.flatMap TracedText.nameEntries := by
    apply SourceTree.flatMap_joinedPieces
    intro index child isChild
    rw [Piece.nameEntries, Piece.child?, isChild, Option.elim_some]
  have sameTracked : (SourceTree.joinedPieces texts).any (Piece.isTracked texts) =
      texts.any fun traced => traced.provenance.isTracked := by
    apply SourceTree.any_joinedPieces
    intro index child isChild
    rw [Piece.isTracked, Piece.child?, isChild, Option.any_some]
  have provenance := assembled.provenance
  rw [sameTracked, sameEntries, sameNames] at provenance
  refine ⟨assembled.characters.trans sameText, provenance, ?_⟩
  intro place numbered inText
  rw [assembled.reading? (joinedPieces_aligned texts) place numbered inText,
    readings?_joinedPieces]

theorem joinOf_of_weaveJoined {withMap : Bool} {texts : List TracedText} {woven : TracedText}
    (joined : SourceTree.weaveJoined withMap texts = .ok woven) :
    JoinOf (texts.map (TracedText.seen withMap)) woven := by
  rw [SourceTree.weaveJoined_eq_seen] at joined
  exact joinOf_of_weaveJoined_true joined

namespace JoinOf

variable {texts others : List TracedText} {woven other : TracedText}

theorem composed (joined : JoinOf texts woven) :
    Composed (texts.any fun traced => traced.provenance.isTracked)
      (texts.flatMap TracedText.entries) (texts.flatMap TracedText.nameEntries) woven :=
  composed_of_provenance untracked_brings joined.provenance

theorem cells (joined : JoinOf texts woven) : woven.cells = texts.flatMap TracedText.cells := by
  rw [← along_joinedReading? Position.first texts, ← joined.text, TracedText.cells]
  apply Cell.along_eq_iff.mpr
  exact joined.reading?

theorem alike (joined : JoinOf texts woven) : Alike [woven] texts where
  text := by
    rw [← joined.text]
    exact List.append_nil _
  tracked := by
    rw [List.any_cons, List.any_nil, Bool.or_false, joined.composed.isTracked]
  entries := by
    intro held
    rw [List.flatMap_singleton, joined.composed.settle_entries]
  names := by
    intro held
    rw [List.flatMap_singleton, joined.composed.enlist_nameEntries]
  reading? := by
    intro place target fromTarget inText
    have inWoven : place < target.behind woven.text.toList := by
      rwa [joinedText, List.flatMap_singleton] at inText
    have fromFirst := Position.target_le_relocate place target Position.first fromTarget
    have moved : place.relocate target Position.first <
        Position.first.behind woven.text.toList := by
      have landed := Position.relocate_lt_relocate fromTarget inWoven Position.first
      rwa [Position.relocate_behind _ _ _ _ (Position.le_refl target),
        Position.relocate_self] at landed
    rw [joinedReading?, if_pos inWoven, joined.reading? _ fromFirst moved,
      map_copiedFrom_joinedReading?, joinedReading?_relocate fromTarget]

theorem congr (joined : JoinOf texts woven) (alike : Alike texts others) :
    JoinOf others woven where
  text := joined.text.trans alike.text
  provenance := by
    have provenance := joined.provenance
    rwa [alike.tracked, alike.entries, alike.names] at provenance
  reading? := by
    intro place numbered inText
    rw [joined.reading? place numbered inText]
    rw [joined.text] at inText
    exact alike.reading? place _ numbered inText

/-- What comes of a join is determined by what is joined. -/
theorem unique (joined : JoinOf texts woven) (again : JoinOf texts other) : woven = other := by
  have sameCharacters := joined.text.trans again.text.symm
  refine joined.composed.unique again.composed (String.toList_inj.mp sameCharacters) ?_
  intro place numbered inText
  rw [joined.reading? place numbered inText,
    again.reading? place numbered (sameCharacters ▸ inText)]

end JoinOf

end TracedText

end SourceWeave
