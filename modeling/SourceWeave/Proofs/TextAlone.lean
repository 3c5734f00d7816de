import SourceWeave.Proofs.GroupOutcomes
import SourceWeave.Proofs.StackDiscipline

/-!
The text of a tree by itself. It is the text that is woven together with the mapping, and it is
there whenever they are. It is missing only where an edit ends behind the text that it edits, and
then text and mapping are missing as well.
-/

set_option autoImplicit false

namespace SourceWeave

theorem Piece.characters_congr {left right : List TracedText}
    (same : left.map TracedText.text = right.map TracedText.text) :
    Piece.characters left = Piece.characters right := by
  funext piece
  cases piece with
  | insert text marked => rfl
  | copy index start stop =>
      have sameChild := congrArg (fun texts : List String =>
        (texts[index]?).elim [] fun text => Utf16.between start stop text.toList) same
      simp only [List.getElem?_map, Option.elim_map] at sameChild
      exact sameChild

theorem TracedText.map_text_seen (withMap : Bool) (texts : List TracedText) :
    (texts.map (TracedText.seen withMap)).map TracedText.text = texts.map TracedText.text := by
  rw [List.map_map]
  rfl

theorem text_eq_of_assemble {left right : List TracedText} {pieces : List Piece}
    {leftMap rightMap : Bool} {leftWoven rightWoven : TracedText}
    (same : left.map TracedText.text = right.map TracedText.text)
    (isLeft : assemble left pieces leftMap = .ok leftWoven)
    (isRight : assemble right pieces rightMap = .ok rightWoven) :
    leftWoven.text = rightWoven.text := by
  rw [assemble_eq_seen] at isLeft isRight
  have sameSeen : (left.map (TracedText.seen leftMap)).map TracedText.text =
      (right.map (TracedText.seen rightMap)).map TracedText.text := by
    rw [TracedText.map_text_seen, TracedText.map_text_seen, same]
  rw [← String.toList_inj, (assembled_of_assemble isLeft).characters,
    (assembled_of_assemble isRight).characters, Piece.characters_congr sameSeen]

namespace EditList

/-- Edits are planned if every one ends within the text; otherwise the first that does not is
reported. -/
theorem pieces_cases (edits : EditList) (length : Nat) :
    (∀ edit ∈ edits.edits, edit.stop ≤ length) ∨
      ∃ edit ∈ edits.edits, length < edit.stop ∧
        edits.pieces length = .error (.outOfRange .replacementEnd edit.stop length) := by
  cases found : edits.edits.find? fun edit => decide (length < edit.stop) with
  | none =>
      left
      intro edit member
      simpa using List.find?_eq_none.mp found edit member
  | some edit =>
      right
      refine ⟨edit, List.mem_of_find?_eq_some found, ?_, ?_⟩
      · simpa using List.find?_some found
      · rw [pieces, found]

end EditList

namespace SourceTree

theorem failure?_weaveJoined_unseen (texts : List TracedText) :
    failure? (weaveJoined false texts) = none := by
  have noEntries : (texts.map (TracedText.seen false)).flatMap TracedText.entries = [] := by
    rw [List.flatMap_map]
    exact List.flatMap_eq_nil_iff.mpr fun _ _ => rfl
  rw [weaveJoined_eq_seen, failure?_weaveJoined, noEntries]
  rfl

theorem failure?_weaveEdited_unseen {child : TracedText} {edits : EditList}
    (within : ∀ edit ∈ edits.edits, edit.stop ≤ utf16Length child.text) :
    failure? (weaveEdited false child edits) = none := by
  have withinUnseen : ∀ edit ∈ edits.edits, edit.stop ≤ utf16Length (child.seen false).text :=
    within
  rw [weaveEdited_eq_seen, failure?_weaveEdited withinUnseen]
  rfl

theorem exists_weaveJoined_unseen {texts others : List TracedText} {woven : TracedText}
    (same : texts.map TracedText.text = others.map TracedText.text)
    (joined : weaveJoined true texts = .ok woven) :
    ∃ unseen, weaveJoined false others = .ok unseen ∧ unseen.text = woven.text := by
  obtain ⟨unseen, isUnseen⟩ := failure?_eq_none_iff.mp (failure?_weaveJoined_unseen others)
  refine ⟨unseen, isUnseen, ?_⟩
  rw [weaveJoined, joinedPieces_congr same] at joined
  exact text_eq_of_assemble same.symm isUnseen joined

theorem exists_weaveEdited_unseen {child other woven : TracedText} {edits : EditList}
    (same : child.text = other.text) (edited : weaveEdited true child edits = .ok woven) :
    ∃ unseen, weaveEdited false other edits = .ok unseen ∧ unseen.text = woven.text := by
  rcases edits.pieces_cases (utf16Length child.text) with within | ⟨edit, _, _, refused⟩
  · have otherWithin : ∀ edit ∈ edits.edits, edit.stop ≤ utf16Length other.text := same ▸ within
    obtain ⟨unseen, isUnseen⟩ := failure?_eq_none_iff.mp (failure?_weaveEdited_unseen otherWithin)
    refine ⟨unseen, isUnseen, ?_⟩
    rw [weaveEdited_eq _ otherWithin] at isUnseen
    rw [weaveEdited_eq _ within, same] at edited
    have sameTexts : [other].map TracedText.text = [child].map TracedText.text := by
      rw [List.map_singleton, List.map_singleton, same]
    exact text_eq_of_assemble sameTexts isUnseen edited
  · rw [weaveEdited, refused] at edited
    cases edited

/-! ### Whole trees -/

mutual

theorem exists_meaning_unseen (tree : SourceTree) {woven : TracedText}
    (seen : meaning true tree = .ok woven) :
    ∃ unseen, meaning false tree = .ok unseen ∧ unseen.text = woven.text := by
  cases tree with
  | plain text identity =>
      rw [meaning] at seen ⊢
      exact ⟨woven, seen, rfl⟩
  | authored text identity =>
      obtain ⟨mapping, _, rfl⟩ := exists_mapping_of_authored seen
      exact ⟨_, rfl, rfl⟩
  | mapped leaf =>
      obtain ⟨mapping, _, rfl⟩ := exists_mapping_of_mapped seen
      exact ⟨_, rfl, rfl⟩
  | joined children =>
      rw [meaning] at seen ⊢
      obtain ⟨results, areResults, joined⟩ := exists_of_bind_eq_ok seen
      obtain ⟨others, areOthers, same⟩ := exists_meanings_unseen children areResults
      rw [areOthers, ok_bind]
      exact exists_weaveJoined_unseen same.symm joined
  | edited child edits =>
      rw [meaning] at seen ⊢
      obtain ⟨result, isResult, edited⟩ := exists_of_bind_eq_ok seen
      obtain ⟨other, isOther, same⟩ := exists_meaning_unseen child isResult
      rw [isOther, ok_bind]
      exact exists_weaveEdited_unseen same.symm edited

theorem exists_meanings_unseen (trees : List SourceTree) {results : List TracedText}
    (seen : meanings true trees = .ok results) :
    ∃ others, meanings false trees = .ok others ∧
      others.map TracedText.text = results.map TracedText.text := by
  cases trees with
  | nil =>
      rw [meanings] at seen ⊢
      exact ⟨results, seen, rfl⟩
  | cons tree rest =>
      rw [meanings] at seen ⊢
      obtain ⟨result, isResult, seen⟩ := exists_of_bind_eq_ok seen
      obtain ⟨further, areFurther, seen⟩ := exists_of_bind_eq_ok seen
      cases seen
      obtain ⟨other, isOther, sameText⟩ := exists_meaning_unseen tree isResult
      obtain ⟨others, areOthers, sameTexts⟩ := exists_meanings_unseen rest areFurther
      rw [isOther, areOthers]
      exact ⟨other :: others, rfl, by rw [List.map_cons, List.map_cons, sameText, sameTexts]⟩

end

theorem text_eq_ok_iff {tree : SourceTree} {text : String} :
    tree.text = .ok text ↔ ∃ woven, meaning false tree = .ok woven ∧ woven.text = text := by
  rw [SourceTree.text, weave_eq_meaning]
  cases meaning false tree <;> simp [bind, Except.bind, pure, Except.pure]

theorem text_eq_error_iff {tree : SourceTree} {cause : MappingError} :
    tree.text = .error cause ↔ meaning false tree = .error cause := by
  rw [SourceTree.text, weave_eq_meaning]
  cases meaning false tree <;> simp [bind, Except.bind, pure, Except.pure]

/-! ### Edits that end outside -/

/-- An edit of some node in the tree ends behind the `length` units of the text that it edits. -/
def Overruns (tree : SourceTree) (edit : Edit) (length : Nat) : Prop :=
  ∃ frames child edits text, plug (.edited child edits) frames = tree ∧ edit ∈ edits.edits ∧
    child.text = .ok text ∧ utf16Length text = length ∧ length < edit.stop

theorem Overruns.fill {tree : SourceTree} {edit : Edit} {length : Nat}
    (overruns : tree.Overruns edit length) (frame : Frame) :
    (frame.fill tree).Overruns edit length := by
  obtain ⟨frames, child, edits, text, place, told⟩ := overruns
  refine ⟨frames ++ [frame], child, edits, text, ?_, told⟩
  rw [plug, List.foldl_append]
  exact congrArg frame.fill place

mutual

theorem exists_overrun_of_meaning (tree : SourceTree) {cause : MappingError}
    (failed : meaning false tree = .error cause) :
    ∃ edit length, tree.Overruns edit length ∧
      cause = .outOfRange .replacementEnd edit.stop length := by
  cases tree with
  | plain text identity =>
      rw [meaning] at failed
      cases failed
  | authored text identity =>
      rw [meaning] at failed
      cases failed
  | mapped leaf =>
      rw [meaning] at failed
      cases failed
  | joined children =>
      rw [meaning] at failed
      cases woven : meanings false children with
      | error other =>
          rw [woven] at failed
          cases failed
          obtain ⟨front, node, back, edit, length, isWhole, overruns, isCause⟩ :=
            exists_overrun_of_meanings children woven
          rw [isWhole]
          exact ⟨edit, length, overruns.fill (.joined front back), isCause⟩
      | ok results =>
          have neverFails := failure?_weaveJoined_unseen results
          rw [woven, ok_bind, ← failure?_eq_some_iff, neverFails] at failed
          cases failed
  | edited child edits =>
      rw [meaning] at failed
      cases woven : meaning false child with
      | error other =>
          rw [woven] at failed
          cases failed
          obtain ⟨edit, length, overruns, isCause⟩ := exists_overrun_of_meaning child woven
          exact ⟨edit, length, overruns.fill (.edited edits), isCause⟩
      | ok result =>
          rw [woven, ok_bind] at failed
          rcases edits.pieces_cases (utf16Length result.text) with
            within | ⟨edit, member, outside, refused⟩
          · rw [← failure?_eq_some_iff, failure?_weaveEdited_unseen within] at failed
            cases failed
          · rw [weaveEdited, refused] at failed
            cases failed
            have childText := text_eq_ok_iff.mpr ⟨result, woven, rfl⟩
            exact ⟨edit, _, ⟨[], child, edits, result.text, rfl, member, childText, rfl, outside⟩,
              rfl⟩

theorem exists_overrun_of_meanings (trees : List SourceTree) {cause : MappingError}
    (failed : meanings false trees = .error cause) :
    ∃ front node back edit length, trees = front ++ node :: back ∧
      node.Overruns edit length ∧ cause = .outOfRange .replacementEnd edit.stop length := by
  cases trees with
  | nil =>
      rw [meanings] at failed
      cases failed
  | cons tree rest =>
      rw [meanings] at failed
      cases woven : meaning false tree with
      | error other =>
          rw [woven] at failed
          cases failed
          obtain ⟨edit, length, overruns, isCause⟩ := exists_overrun_of_meaning tree woven
          exact ⟨[], tree, rest, edit, length, rfl, overruns, isCause⟩
      | ok result =>
          rw [woven, ok_bind] at failed
          cases others : meanings false rest with
          | ok results =>
              rw [others] at failed
              cases failed
          | error other =>
              rw [others] at failed
              cases failed
              obtain ⟨front, node, back, edit, length, isRest, overruns, isCause⟩ :=
                exists_overrun_of_meanings rest others
              exact ⟨tree :: front, node, back, edit, length, by rw [isRest]; rfl, overruns,
                isCause⟩

end

theorem exists_meaning_of_fill {withMap : Bool} {node : SourceTree} {frame : Frame}
    {woven : TracedText} (whole : meaning withMap (frame.fill node) = .ok woven) :
    ∃ result, meaning withMap node = .ok result := by
  cases frame with
  | joined before after =>
      rw [Frame.fill, meaning] at whole
      obtain ⟨results, areResults, _⟩ := exists_of_bind_eq_ok whole
      obtain ⟨_, second, _, isSecond, _⟩ := meanings_append_eq_ok.mp areResults
      rw [meanings] at isSecond
      obtain ⟨result, isResult, _⟩ := exists_of_bind_eq_ok isSecond
      exact ⟨result, isResult⟩
  | edited edits =>
      rw [Frame.fill, meaning] at whole
      obtain ⟨result, isResult, _⟩ := exists_of_bind_eq_ok whole
      exact ⟨result, isResult⟩

theorem exists_meaning_of_plug {withMap : Bool} {node : SourceTree} {frames : List Frame}
    {woven : TracedText} (whole : meaning withMap (plug node frames) = .ok woven) :
    ∃ result, meaning withMap node = .ok result := by
  induction frames generalizing node with
  | nil => exact ⟨woven, whole⟩
  | cons frame frames ih =>
      have inner : meaning withMap (plug (frame.fill node) frames) = .ok woven := whole
      obtain ⟨result, isResult⟩ := ih inner
      exact exists_meaning_of_fill isResult

theorem exists_error_of_overruns {tree : SourceTree} {edit : Edit} {length : Nat}
    (overruns : tree.Overruns edit length) : ∃ cause, tree.text = .error cause := by
  obtain ⟨frames, child, edits, text, place, member, childText, isLength, outside⟩ := overruns
  obtain ⟨result, isResult, isText⟩ := text_eq_ok_iff.mp childText
  cases whole : tree.text with
  | error cause => exact ⟨cause, rfl⟩
  | ok other =>
      obtain ⟨woven, isWoven, _⟩ := text_eq_ok_iff.mp whole
      rw [← place] at isWoven
      obtain ⟨edited, isEdited⟩ := exists_meaning_of_plug isWoven
      rw [meaning, isResult, ok_bind] at isEdited
      rcases edits.pieces_cases (utf16Length result.text) with within | ⟨_, _, _, refused⟩
      · have inside := within edit member
        rw [isText, isLength] at inside
        omega
      · rw [weaveEdited, refused] at isEdited
        cases isEdited

/-- The text of a tree is that of its rendering, whatever the options, and is missing only if
that is. What makes it fail is an edit that ends behind its text, and every such edit does. -/
theorem text_agrees (tree : SourceTree) :
    (∀ options rendered, tree.rendering options = .ok rendered → tree.text = .ok rendered.text) ∧
      (∀ cause, tree.text = .error cause →
        (∀ options, ∃ other, tree.rendering options = .error other) ∧
          ∃ edit length, tree.Overruns edit length ∧
            cause = .outOfRange .replacementEnd edit.stop length) ∧
      ∀ edit length, tree.Overruns edit length → ∃ cause, tree.text = .error cause := by
  have ofRendering (options : MappingOptions) (rendered : Rendering)
      (shown : tree.rendering options = .ok rendered) : tree.text = .ok rendered.text := by
    obtain ⟨woven, isWoven, shown⟩ := exists_of_bind_eq_ok shown
    obtain ⟨mapping, _, shown⟩ := exists_of_bind_eq_ok shown
    cases shown
    rw [weave_eq_meaning] at isWoven
    obtain ⟨unseen, isUnseen, same⟩ := exists_meaning_unseen tree isWoven
    exact text_eq_ok_iff.mpr ⟨unseen, isUnseen, same⟩
  refine ⟨ofRendering, ?_, fun edit length => exists_error_of_overruns⟩
  intro cause failed
  constructor
  · intro options
    cases shown : tree.rendering options with
    | error other => exact ⟨other, rfl⟩
    | ok rendered =>
        rw [ofRendering options rendered shown] at failed
        cases failed
  · exact exists_overrun_of_meaning tree (text_eq_error_iff.mp failed)

theorem text_agrees_shortened :
    let shortened : SourceTree := .edited (.authored "ab" "i")
      { edits := [⟨0, 1, ""⟩], forward := by decide, disjoint := List.pairwise_singleton _ _ }
    let inside : SourceTree := .joined [.plain "x" none, .edited shortened
      { edits := [⟨0, 1, "y"⟩], forward := by decide, disjoint := List.pairwise_singleton _ _ }]
    let outside : SourceTree := .joined [.plain "x" none, .edited shortened
      { edits := [⟨0, 2, "y"⟩], forward := by decide, disjoint := List.pairwise_singleton _ _ }]
    (∃ rendered, inside.rendering {} = .ok rendered ∧ inside.text = .ok rendered.text) ∧
      (outside.text = .error (.outOfRange .replacementEnd 2 1) ∧
        (∀ options, ∃ other, outside.rendering options = .error other) ∧
          ∃ edit length, outside.Overruns edit length ∧
            MappingError.outOfRange .replacementEnd 2 1 =
              .outOfRange .replacementEnd edit.stop length) ∧
      outside.Overruns ⟨0, 2, "y"⟩ 1 ∧ ∃ cause, outside.text = .error cause := by
  intro shortened inside outside
  have shown : (inside.rendering {}).isOk = true := by decide +kernel
  obtain ⟨rendered, isRendered⟩ := exists_of_isOk shown
  have failed : outside.text = .error (.outOfRange .replacementEnd 2 1) := by decide +kernel
  have childText : shortened.text = .ok "b" := by decide +kernel
  have overruns : outside.Overruns ⟨0, 2, "y"⟩ 1 :=
    ⟨[.joined [.plain "x" none] []], shortened, _, "b", rfl, List.mem_cons_self, childText,
      by decide +kernel, by decide⟩
  exact ⟨⟨rendered, isRendered, (text_agrees inside).1 {} rendered isRendered⟩,
    ⟨failed, (text_agrees outside).2.1 _ failed⟩,
    ⟨overruns, (text_agrees outside).2.2 _ _ overruns⟩⟩

end SourceTree

end SourceWeave
