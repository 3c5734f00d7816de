import SourceWeave.Proofs.Editing
import SourceWeave.Proofs.Regrouping

/-!
Laws of editing. A tree that puts texts together is not changed by joining it alone or by
editing nothing in it; the edits of a node can be made one after the other, the last one
first; and edits of a join are edits of what it joins.
-/

set_option autoImplicit false

namespace SourceWeave

namespace SourceTree

open TracedText (JoinOf)

variable {withMap : Bool}

theorem weaveEdited_nothing {woven : TracedText} (canonical : woven.Canonical) :
    weaveEdited true woven EditList.nothing = .ok woven := by
  have neverFails := failure?_weaveEdited (EditList.nothing_within (utf16Length woven.text))
  rw [canonical.failure?_addAll] at neverFails
  obtain ⟨again, edited⟩ := failure?_eq_none_iff.mp neverFails
  have result := editOf_of_weaveEdited edited
  have sameCells : woven.cells = again.cells := by
    rw [result.cells (fun edit impossible => nomatch impossible)]
    exact (Cell.spliced_nil woven.headed_cells).symm
  rw [edited, canonical.composed.unique_of_cells result.composed sameCells]

theorem weaveJoined_singleton (woven : TracedText) :
    weaveJoined withMap [woven] = weaveEdited withMap woven EditList.nothing := by
  rw [weaveEdited_eq withMap (EditList.nothing_within (utf16Length woven.text))]
  rfl

theorem join_singleton (tree : SourceTree) : join [tree] = .joined [tree] :=
  rfl

def isComposed : SourceTree → Bool
  | .joined _ => true
  | .edited _ _ => true
  | _ => false

/-- A tree with any number of joins of one and of edits of nothing around it. -/
inductive Rewraps (tree : SourceTree) : SourceTree → Prop
  | self : Rewraps tree tree
  | join {wrapped : SourceTree} (wraps : Rewraps tree wrapped) :
      Rewraps tree (SourceTree.join [wrapped])
  | edit {wrapped edited : SourceTree} (wraps : Rewraps tree wrapped)
      (isEdited : wrapped.edit [] = .ok edited) : Rewraps tree edited

theorem canonical_of_meaning {tree : SourceTree} {woven : TracedText}
    (composed : tree.isComposed = true) (isWoven : meaning withMap tree = .ok woven) :
    woven.Canonical ∧ woven.seen withMap = woven := by
  cases tree with
  | plain text identity => cases composed
  | authored text identity => cases composed
  | mapped leaf => cases composed
  | joined children =>
      rw [meaning] at isWoven
      obtain ⟨results, _, joined⟩ := exists_of_bind_eq_ok isWoven
      exact canonical_of_assemble joined
  | edited child edits =>
      rw [meaning] at isWoven
      obtain ⟨result, _, edited⟩ := exists_of_bind_eq_ok isWoven
      exact canonical_of_weaveEdited edited

theorem weaveEdited_of_composed {tree : SourceTree} {woven : TracedText}
    (composed : tree.isComposed = true) (isWoven : meaning withMap tree = .ok woven) :
    weaveEdited withMap woven EditList.nothing = .ok woven := by
  obtain ⟨canonical, isSeen⟩ := canonical_of_meaning composed isWoven
  rw [weaveEdited_eq_seen, isSeen]
  exact weaveEdited_nothing canonical

/-- A composed tree is woven to the same, or fails with the same error, however often it is
wrapped. -/
theorem weave_of_rewraps {tree wrapped : SourceTree} (composed : tree.isComposed = true)
    (wraps : Rewraps tree wrapped) : wrapped.weave withMap = tree.weave withMap := by
  have kept : (meaning withMap tree >>= fun woven => weaveEdited withMap woven EditList.nothing) =
      meaning withMap tree := by
    cases isWoven : meaning withMap tree with
    | error cause => rfl
    | ok woven => exact weaveEdited_of_composed composed isWoven
  rw [weave_eq_meaning, weave_eq_meaning]
  induction wraps with
  | self => rfl
  | join wraps ih =>
      rw [join_singleton, meaning, meanings, ih]
      refine Eq.trans ?_ kept
      cases meaning withMap tree with
      | error cause => rfl
      | ok woven => exact weaveJoined_singleton woven
  | edit wraps isEdited ih =>
      obtain ⟨list, isList, isTree⟩ := edit_eq_ok_iff.mp isEdited
      have isNothing : list = EditList.nothing := EditList.ext isList
      rw [isTree, isNothing, meaning, ih, kept]

theorem weave_of_rewraps_thrice :
    let tree : SourceTree :=
      .edited (.joined [.authored "a😀b\nc" "f", .plain "d" (some "g")])
        { edits := [⟨1, 2, "x"⟩]
          forward := by decide
          disjoint := List.pairwise_singleton _ _ }
    let wrapped : SourceTree := join [.edited (join [tree]) EditList.nothing]
    ∃ woven, tree.weave true = .ok woven ∧ wrapped.weave true = .ok woven := by
  intro tree wrapped
  have succeeds : (tree.weave true).isOk = true := by decide +kernel
  obtain ⟨woven, isWoven⟩ := exists_of_isOk succeeds
  have wraps : Rewraps tree wrapped := .join (.edit (.join .self) rfl)
  refine ⟨woven, isWoven, ?_⟩
  rw [weave_of_rewraps rfl wraps]
  exact isWoven

/-! ### One edit after the other -/

theorem aligned_of_editOf {child woven : TracedText} {last edit : Edit}
    (once : EditOf child [last] woven) (lastAligned : last.Aligned child.text.toList)
    (aligned : edit.Aligned child.text.toList) (startBefore : edit.start ≤ last.start)
    (stopBefore : edit.stop ≤ last.start) : edit.Aligned woven.text.toList := by
  have cells := once.cells (by
    intro only member
    rw [List.mem_singleton.mp member]
    exact lastAligned)
  have startAligned : Utf16.Aligned (child.cells.map Cell.character) last.start := by
    rw [child.map_character_cells]
    exact lastAligned.1
  obtain ⟨front, rest, back, whole, frontExtent, _, editedOnce, _⟩ :=
    Cell.exists_spliced_single child.headed_cells startAligned
  rw [← child.map_character_cells, whole, List.map_append] at aligned
  rw [← woven.map_character_cells, cells, editedOnce, List.map_append]
  have inFront := aligned.of_append (startBefore.trans (Nat.le_of_eq frontExtent.symm))
    (stopBefore.trans (Nat.le_of_eq frontExtent.symm))
  exact inFront.append _

section Concat

variable {child : TracedText} {all others only : EditList} {last : Edit}
  (isAll : all.edits = others.edits ++ [last])
  (aligned : ∀ edit ∈ all.edits, edit.Aligned child.text.toList)

include isAll aligned

private theorem editOf_concat {once : TracedText} (editedOnce : EditOf child [last] once) :
    (∀ edit ∈ others.edits, edit.Aligned once.text.toList) ∧
      ∀ woven, EditOf once others.edits woven → EditOf child all.edits woven := by
  have lastAligned : last.Aligned child.text.toList := by
    apply aligned
    rw [isAll]
    exact List.mem_append_right _ List.mem_cons_self
  have disjoint := all.disjoint
  rw [isAll] at disjoint
  have inFront (edit : Edit) (member : edit ∈ others.edits) :
      edit.start ≤ last.start ∧ edit.stop ≤ last.start := by
    have apart := (List.pairwise_append.mp disjoint).2.2 edit member last List.mem_cons_self
    exact ⟨Nat.le_trans (others.forward edit member) apart, apart⟩
  have othersAligned (edit : Edit) (member : edit ∈ others.edits) :
      edit.Aligned once.text.toList := by
    have inAll : edit ∈ all.edits := by
      rw [isAll]
      exact List.mem_append_left _ member
    obtain ⟨startBefore, stopBefore⟩ := inFront edit member
    exact aligned_of_editOf editedOnce lastAligned (aligned edit inAll) startBefore stopBefore
  refine ⟨othersAligned, ?_⟩
  intro woven edited
  have startAligned : Utf16.Aligned (child.cells.map Cell.character) last.start := by
    rw [child.map_character_cells]
    exact lastAligned.1
  exact
    { composed := editedOnce.composed.trans edited.composed
      cells := by
        intro _
        rw [edited.cells othersAligned, editedOnce.cells, isAll,
          Cell.spliced_concat child.headed_cells startAligned inFront (Nat.zero_le _)]
        intro edit member
        rw [List.mem_singleton.mp member]
        exact lastAligned }

variable (isOnly : only.edits = [last])

include isOnly

private theorem weaveEdited_concat_true :
    (weaveEdited true child only >>= fun once => weaveEdited true once others) =
      weaveEdited true child all := by
  have allWithin (edit : Edit) (member : edit ∈ all.edits) : edit.stop ≤ utf16Length child.text :=
    (aligned edit member).stop_le
  have onlyWithin (edit : Edit) (member : edit ∈ only.edits) :
      edit.stop ≤ utf16Length child.text := by
    apply allWithin
    rw [isAll]
    rw [isOnly] at member
    exact List.mem_append_right _ member
  have allOutcome := failure?_weaveEdited allWithin
  have onlyOutcome := failure?_weaveEdited onlyWithin
  cases conflict : failure? (({} : SourceRegistry).addAll child.entries) with
  | some cause =>
      rw [conflict] at allOutcome onlyOutcome
      rw [failure?_eq_some_iff.mp allOutcome, failure?_eq_some_iff.mp onlyOutcome]
      rfl
  | none =>
      rw [conflict] at allOutcome onlyOutcome
      obtain ⟨whole, isWhole⟩ := failure?_eq_none_iff.mp allOutcome
      obtain ⟨once, isOnce⟩ := failure?_eq_none_iff.mp onlyOutcome
      have editedOnce := editOf_of_weaveEdited isOnce
      rw [isOnly] at editedOnce
      obtain ⟨othersAligned, further⟩ := editOf_concat isAll aligned editedOnce
      have othersOutcome := failure?_weaveEdited
        (fun edit member => (othersAligned edit member).stop_le)
      rw [editedOnce.composed.canonical.failure?_addAll] at othersOutcome
      obtain ⟨twice, isTwice⟩ := failure?_eq_none_iff.mp othersOutcome
      have wholeEdit := editOf_of_weaveEdited isWhole
      have twiceEdit := further twice (editOf_of_weaveEdited isTwice)
      have sameCells : twice.cells = whole.cells := by
        rw [twiceEdit.cells aligned, wholeEdit.cells aligned]
      rw [isOnce, ok_bind, isTwice, isWhole,
        twiceEdit.composed.unique_of_cells wholeEdit.composed sameCells]

/-- All edits at once do what the last edit and then the others do, and fail as these fail. -/
theorem weaveEdited_concat (withMap : Bool) :
    (weaveEdited withMap child only >>= fun once => weaveEdited withMap once others) =
      weaveEdited withMap child all := by
  have seenAligned : ∀ edit ∈ all.edits, edit.Aligned (child.seen withMap).text.toList := aligned
  rw [weaveEdited_eq_seen withMap child all, ← weaveEdited_concat_true isAll seenAligned isOnly,
    ← weaveEdited_eq_seen]
  cases isOnce : weaveEdited withMap child only with
  | error cause => rfl
  | ok once =>
      rw [ok_bind, ok_bind, weaveEdited_eq_seen, (canonical_of_weaveEdited isOnce).2]

end Concat

/-- The edits of a node, all of which cut between characters of its child's text, can be
made in two steps: the last in the order of application first, then the others. -/
theorem weave_edit_concat {tree whole : SourceTree} {given others : List Edit} {last : Edit}
    (accepted : tree.edit given = .ok whole)
    (inOrder : EditList.applicationOrder given = others ++ [last])
    (aligned : ∀ woven, tree.weave withMap = .ok woven →
      ∀ edit ∈ given, edit.Aligned woven.text.toList) :
    ∃ once twice, tree.edit [last] = .ok once ∧ once.edit others = .ok twice ∧
      twice.weave withMap = whole.weave withMap := by
  obtain ⟨all, allInOrder, isWhole⟩ := edit_eq_ok_iff.mp accepted
  cases isWhole
  have isAll : all.edits = others ++ [last] := allInOrder.trans inOrder
  have othersKept : others.Sublist all.edits := by
    rw [isAll]
    exact List.sublist_append_left _ _
  have lastKept : [last].Sublist all.edits := by
    rw [isAll]
    exact List.sublist_append_right _ _
  refine ⟨.edited tree (all.sublist lastKept),
    .edited (.edited tree (all.sublist lastKept)) (all.sublist othersKept), ?_, ?_, ?_⟩
  · exact edit_eq_ok_iff.mpr ⟨_, all.sublist_inOrder lastKept, rfl⟩
  · exact edit_eq_ok_iff.mpr ⟨_, all.sublist_inOrder othersKept, rfl⟩
  · rw [weave_eq_meaning, weave_eq_meaning, meaning, meaning, meaning]
    cases isWoven : meaning withMap tree with
    | error cause => rfl
    | ok woven =>
        have allAligned : ∀ edit ∈ all.edits, edit.Aligned woven.text.toList := by
          intro edit member
          apply aligned woven (by rw [weave_eq_meaning, isWoven])
          rw [allInOrder] at member
          exact EditList.mem_applicationOrder.mp member
        rw [ok_bind, ok_bind]
        exact weaveEdited_concat isAll allAligned rfl withMap

theorem weave_edit_concat_adjacent :
    let tree : SourceTree := .joined [.authored "ab\ncd\n" "f", .plain "xy" (some "g")]
    let given : List Edit := [⟨5, 7, ""⟩, ⟨1, 2, "P"⟩, ⟨2, 3, "Q\nR"⟩]
    ∃ whole once twice woven, tree.edit given = .ok whole ∧ whole.weave true = .ok woven ∧
      tree.edit [⟨5, 7, ""⟩] = .ok once ∧ once.edit [⟨1, 2, "P"⟩, ⟨2, 3, "Q\nR"⟩] = .ok twice ∧
      twice.weave true = .ok woven := by
  intro tree given
  let all : EditList :=
    { edits := [⟨1, 2, "P"⟩, ⟨2, 3, "Q\nR"⟩, ⟨5, 7, ""⟩]
      forward := by decide
      disjoint := by decide }
  let whole : SourceTree := .edited tree all
  have isAll : all.edits = EditList.applicationOrder given := by decide
  have accepted : tree.edit given = .ok whole := edit_eq_ok_iff.mpr ⟨all, isAll, rfl⟩
  have succeeds : (whole.weave true).isOk = true := by decide +kernel
  obtain ⟨woven, isWoven⟩ := exists_of_isOk succeeds
  have text : (tree.weave true).map TracedText.text = .ok "ab\ncd\nxy" := by decide +kernel
  have aligned : ∀ result, tree.weave true = .ok result →
      ∀ edit ∈ given, edit.Aligned result.text.toList := by
    intro result isResult
    rw [isResult, Except.map, Except.ok.injEq] at text
    rw [text]
    decide
  have inOrder : EditList.applicationOrder given =
      [⟨1, 2, "P"⟩, ⟨2, 3, "Q\nR"⟩] ++ [⟨5, 7, ""⟩] := by decide
  obtain ⟨once, twice, isOnce, isTwice, same⟩ := weave_edit_concat accepted inOrder aligned
  refine ⟨whole, once, twice, woven, accepted, isWoven, isOnce, isTwice, ?_⟩
  rw [same]
  exact isWoven

/-! ### Edits of a join -/

section Join

variable {left right joined editedLeft editedRight : TracedText} {early late : EditList}

/-- Two edited texts, joined, have the cells and the tables of the joined texts, edited. -/
theorem joinOf_edited {whole parts : TracedText} (isJoined : JoinOf [left, right] joined)
    (within : ∀ edit ∈ early.edits, edit.stop ≤ utf16Length left.text)
    (earlyAligned : ∀ edit ∈ early.edits, edit.Aligned left.text.toList)
    (lateAligned : ∀ edit ∈ late.edits, edit.Aligned right.text.toList)
    (isWhole : EditOf joined (early.append (utf16Length left.text) late within).edits whole)
    (isEditedLeft : EditOf left early.edits editedLeft)
    (isEditedRight : EditOf right late.edits editedRight)
    (areParts : JoinOf [editedLeft, editedRight] parts) : whole = parts := by
  have joinedText : joined.text.toList = left.text.toList ++ right.text.toList := by
    rw [isJoined.text]
    simp [TracedText.joinedText]
  have joinedCells : joined.cells = left.cells ++ right.cells := by
    rw [isJoined.cells]
    simp
  have aligned : ∀ edit ∈ (early.append (utf16Length left.text) late within).edits,
      edit.Aligned joined.text.toList := by
    intro edit member
    rw [joinedText]
    rcases List.mem_append.mp member with isEarly | isLate
    · exact (earlyAligned edit isEarly).append _
    · obtain ⟨original, inLate, isEdit⟩ := List.mem_map.mp isLate
      rw [← isEdit]
      exact (lateAligned original inLate).shifted left.text.toList
  have inFront : ∀ edit ∈ early.edits, edit.start ≤ Utf16.extent Cell.character left.cells ∧
      edit.stop ≤ Utf16.extent Cell.character left.cells := by
    intro edit member
    rw [left.extent_cells]
    exact ⟨(earlyAligned edit member).start_le, within edit member⟩
  have sameCells : whole.cells = parts.cells := by
    have spliced := Cell.spliced_append right.headed_cells inFront late.edits (Nat.zero_le _)
    rw [left.extent_cells] at spliced
    rw [isWhole.cells aligned, joinedCells, areParts.cells]
    change Cell.spliced _ 0 (early.edits ++ late.edits.map (Edit.shifted _)) = _
    rw [spliced, ← isEditedLeft.cells earlyAligned, ← isEditedRight.cells lateAligned]
    simp
  have composedWhole := isJoined.composed.trans isWhole.composed
  have sameTracked : ([editedLeft, editedRight].any fun traced => traced.provenance.isTracked) =
      [left, right].any fun traced => traced.provenance.isTracked := by
    simp only [List.any_cons, isEditedLeft.composed.isTracked, isEditedRight.composed.isTracked]
  have sameEntries : SourceRegistry.settle [] ([editedLeft, editedRight].flatMap
      TracedText.entries) =
        SourceRegistry.settle [] ([left, right].flatMap TracedText.entries) := by
    simp only [List.flatMap_cons, SourceRegistry.settle_append,
      isEditedLeft.composed.settle_entries, isEditedRight.composed.settle_entries]
  have sameNames : enlist id [] ([editedLeft, editedRight].flatMap TracedText.nameEntries) =
      enlist id [] ([left, right].flatMap TracedText.nameEntries) := by
    simp only [List.flatMap_cons, enlist_append, isEditedLeft.composed.enlist_nameEntries,
      isEditedRight.composed.enlist_nameEntries]
  have composedParts := areParts.composed.congr sameTracked sameEntries sameNames
  exact composedWhole.unique_of_cells composedParts sameCells

end Join

theorem exists_of_meanings_pair {left right : SourceTree} {results : List TracedText}
    (areWoven : meanings withMap [left, right] = .ok results) :
    ∃ first second, meaning withMap left = .ok first ∧ meaning withMap right = .ok second ∧
      results = [first, second] := by
  rw [meanings] at areWoven
  obtain ⟨first, isFirst, areWoven⟩ := exists_of_bind_eq_ok areWoven
  obtain ⟨others, areOthers, isWhole⟩ := exists_of_bind_eq_ok areWoven
  rw [meanings] at areOthers
  obtain ⟨second, isSecond, isLast⟩ := exists_of_bind_eq_ok areOthers
  cases isWhole
  cases isLast
  exact ⟨first, second, isFirst, isSecond, rfl⟩

/-- Edits of two texts, those of the second moved behind the first, do to a join of the texts
what they do to the texts by themselves. -/
theorem weave_edit_join {left right editedLeft editedRight : SourceTree}
    {leftGiven rightGiven : List Edit} {leftWoven rightWoven : TracedText}
    (leftAccepted : left.edit leftGiven = .ok editedLeft)
    (rightAccepted : right.edit rightGiven = .ok editedRight)
    (leftIsWoven : left.weave withMap = .ok leftWoven)
    (rightIsWoven : right.weave withMap = .ok rightWoven)
    (leftAligned : ∀ edit ∈ leftGiven, edit.Aligned leftWoven.text.toList)
    (rightAligned : ∀ edit ∈ rightGiven, edit.Aligned rightWoven.text.toList) :
    ∃ edited, (join [left, right]).edit
        (leftGiven ++ rightGiven.map (Edit.shifted (utf16Length leftWoven.text))) = .ok edited ∧
      ∀ whole parts, edited.weave withMap = .ok whole →
        (join [editedLeft, editedRight]).weave withMap = .ok parts → whole = parts := by
  obtain ⟨early, earlyInOrder, isLeft⟩ := edit_eq_ok_iff.mp leftAccepted
  obtain ⟨late, lateInOrder, isRight⟩ := edit_eq_ok_iff.mp rightAccepted
  cases isLeft
  cases isRight
  rw [weave_eq_meaning] at leftIsWoven rightIsWoven
  have earlyAligned : ∀ edit ∈ early.edits, edit.Aligned leftWoven.text.toList := by
    rw [earlyInOrder]
    exact fun edit member => leftAligned edit (EditList.mem_applicationOrder.mp member)
  have lateAligned : ∀ edit ∈ late.edits, edit.Aligned rightWoven.text.toList := by
    rw [lateInOrder]
    exact fun edit member => rightAligned edit (EditList.mem_applicationOrder.mp member)
  have within : ∀ edit ∈ early.edits, edit.stop ≤ utf16Length leftWoven.text :=
    fun edit member => (earlyAligned edit member).stop_le
  refine ⟨.edited (join [left, right]) (early.append _ late within), ?_, ?_⟩
  · exact edit_eq_ok_iff.mpr ⟨_, EditList.append_inOrder earlyInOrder lateInOrder within, rfl⟩
  · intro whole parts wholeIsWoven partsAreWoven
    rw [weave_eq_meaning] at wholeIsWoven partsAreWoven
    rw [meaning] at wholeIsWoven
    obtain ⟨joined, joinedIsWoven, wholeIsWoven⟩ := exists_of_bind_eq_ok wholeIsWoven
    obtain ⟨texts, areTexts, isJoined⟩ := joinOf_seen_of_join joinedIsWoven
    obtain ⟨editedTexts, areEdited, areParts⟩ := joinOf_seen_of_join partsAreWoven
    obtain ⟨_, _, isLeft, isRight, isPair⟩ := exists_of_meanings_pair areTexts
    obtain ⟨first, second, isFirst, isSecond, isEditedPair⟩ := exists_of_meanings_pair areEdited
    rw [leftIsWoven] at isLeft
    rw [rightIsWoven] at isRight
    cases isLeft
    cases isRight
    rw [isPair] at isJoined
    rw [isEditedPair] at areParts
    rw [meaning, leftIsWoven, ok_bind] at isFirst
    rw [meaning, rightIsWoven, ok_bind] at isSecond
    rw [List.map_cons, List.map_singleton, (canonical_of_weaveEdited isFirst).2,
      (canonical_of_weaveEdited isSecond).2] at areParts
    rw [weaveEdited_eq_seen, (canonical_of_meaning rfl joinedIsWoven).2] at wholeIsWoven
    rw [weaveEdited_eq_seen] at isFirst isSecond
    exact joinOf_edited isJoined within earlyAligned lateAligned
      (editOf_of_weaveEdited wholeIsWoven) (editOf_of_weaveEdited isFirst)
      (editOf_of_weaveEdited isSecond) areParts

theorem weave_edit_join_seam :
    let left : SourceTree := .authored "ab\ncd" "f"
    let right : SourceTree := .plain "xy" (some "g")
    let together : List Edit := [⟨4, 5, ""⟩, ⟨6, 7, "\n"⟩, ⟨5, 5, "Q"⟩]
    ∃ editedLeft editedRight edited woven, left.edit [⟨4, 5, ""⟩] = .ok editedLeft ∧
      right.edit [⟨1, 2, "\n"⟩, ⟨0, 0, "Q"⟩] = .ok editedRight ∧
      (join [left, right]).edit together = .ok edited ∧ edited.weave true = .ok woven ∧
      (join [editedLeft, editedRight]).weave true = .ok woven := by
  intro left right together
  let early : EditList :=
    { edits := [⟨4, 5, ""⟩]
      forward := by decide
      disjoint := List.pairwise_singleton _ _ }
  let late : EditList :=
    { edits := [⟨0, 0, "Q"⟩, ⟨1, 2, "\n"⟩]
      forward := by decide
      disjoint := by decide }
  let all : EditList :=
    { edits := [⟨4, 5, ""⟩, ⟨5, 5, "Q"⟩, ⟨6, 7, "\n"⟩]
      forward := by decide
      disjoint := by decide }
  have leftAccepted : left.edit [⟨4, 5, ""⟩] = .ok (.edited left early) :=
    edit_eq_ok_iff.mpr ⟨early, by decide, rfl⟩
  have rightAccepted : right.edit [⟨1, 2, "\n"⟩, ⟨0, 0, "Q"⟩] = .ok (.edited right late) :=
    edit_eq_ok_iff.mpr ⟨late, by decide, rfl⟩
  have togetherAccepted : (join [left, right]).edit together =
      .ok (.edited (join [left, right]) all) := edit_eq_ok_iff.mpr ⟨all, by decide, rfl⟩
  have leftSucceeds : (left.weave true).isOk = true := by decide +kernel
  have rightSucceeds : (right.weave true).isOk = true := by decide +kernel
  have wholeSucceeds : ((edited (join [left, right]) all).weave true).isOk = true := by
    decide +kernel
  have partsSucceed : ((join [edited left early, edited right late]).weave true).isOk = true := by
    decide +kernel
  obtain ⟨leftWoven, leftIsWoven⟩ := exists_of_isOk leftSucceeds
  obtain ⟨rightWoven, rightIsWoven⟩ := exists_of_isOk rightSucceeds
  obtain ⟨whole, wholeIsWoven⟩ := exists_of_isOk wholeSucceeds
  obtain ⟨parts, partsAreWoven⟩ := exists_of_isOk partsSucceed
  have leftText : (left.weave true).map TracedText.text = .ok "ab\ncd" := by decide +kernel
  have rightText : (right.weave true).map TracedText.text = .ok "xy" := by decide +kernel
  rw [leftIsWoven, Except.map, Except.ok.injEq] at leftText
  rw [rightIsWoven, Except.map, Except.ok.injEq] at rightText
  obtain ⟨result, isResult, same⟩ := weave_edit_join leftAccepted rightAccepted leftIsWoven
    rightIsWoven (by rw [leftText]; decide) (by rw [rightText]; decide)
  rw [leftText] at isResult
  change (join [left, right]).edit together = _ at isResult
  rw [togetherAccepted, Except.ok.injEq] at isResult
  rw [← isResult] at same
  have equal := same whole parts wholeIsWoven partsAreWoven
  exact ⟨_, _, _, whole, leftAccepted, rightAccepted, togetherAccepted, wholeIsWoven,
    equal ▸ partsAreWoven⟩

end SourceTree

end SourceWeave
