import SourceWeave.Proofs.Assembled
import SourceWeave.Proofs.Authored
import SourceWeave.Proofs.Decoding
import SourceWeave.Proofs.Passing
import SourceWeave.Proofs.Weaving

/-!
Every mapping that a tree is rendered with is well formed, and the check of a mapping's
parts never fails while a tree is woven, whatever maps came with its leaves.
-/

set_option autoImplicit false

namespace SourceWeave

namespace IndexedText

variable (whole : IndexedText) (offset start stop : Nat)

theorem checkOffset_delivers :
    Delivers MappingError.isOfParts (fun _ => True) (whole.checkOffset offset) := by
  unfold checkOffset
  split
  · exact .error rfl
  · exact .ok trivial

theorem positionAt_delivers :
    Delivers MappingError.isOfParts (fun _ => True) (whole.positionAt offset) :=
  (whole.checkOffset_delivers offset).bind fun _ _ => .ok trivial

theorem byteOffset_delivers :
    Delivers MappingError.isOfParts (fun _ => True) (whole.byteOffset offset) := by
  refine (whole.checkOffset_delivers offset).bind fun _ _ => ?_
  split
  · exact .ok trivial
  · exact .ok trivial

theorem slice_delivers :
    Delivers MappingError.isOfParts (fun _ => True) (whole.slice start stop) := by
  unfold slice
  split
  · exact .error rfl
  · refine (whole.byteOffset_delivers start).bind fun _ _ => ?_
    exact (whole.byteOffset_delivers stop).bind fun _ _ => .ok trivial

end IndexedText

namespace Assembly

variable (assembly : Assembly)

theorem enter_delivers (child : Strand) :
    Delivers MappingError.isOfParts (fun _ => True) (assembly.enter child) := by
  unfold enter
  split
  · exact .ok trivial
  · exact (assembly.sources.add_delivers _ _).bind fun _ _ => .ok trivial
  · exact (assembly.sources.addAll_delivers _).bind fun _ _ => .ok trivial

theorem link_delivers (index : Nat) (child : Strand) :
    Delivers MappingError.isOfParts (fun _ => True) (assembly.link index child) := by
  unfold link
  split
  · exact .ok trivial
  · exact (assembly.enter_delivers child).bind fun _ _ => .ok trivial

theorem copy_delivers (withMap : Bool) (children : Array Strand) (index start stop : Nat) :
    Delivers MappingError.isOfParts (fun _ => True)
      (assembly.copy withMap children index start stop) := by
  unfold copy
  split
  · exact .error rfl
  · rename_i child _
    split
    · refine (assembly.link_delivers index child).bind ?_
      intro entered _
      obtain ⟨links, linked⟩ := entered
      refine (child.text.slice_delivers start stop).bind fun text _ => ?_
      split
      · exact .ok trivial
      · refine (child.text.positionAt_delivers start).bind fun _ _ => ?_
        exact (child.text.positionAt_delivers stop).bind fun _ _ => .ok trivial
    · exact (child.text.slice_delivers start stop).bind fun _ _ => .ok trivial

theorem step_delivers (withMap : Bool) (children : Array Strand) (piece : Piece) :
    Delivers MappingError.isOfParts (fun _ => True) (assembly.step withMap children piece) := by
  cases piece with
  | copy index start stop => exact assembly.copy_delivers withMap children index start stop
  | insert text marked => exact .ok trivial

theorem run_delivers (withMap : Bool) (children : Array Strand) (pieces : List Piece) :
    Delivers MappingError.isOfParts (fun _ => True)
      (pieces.foldlM (Assembly.step withMap children) assembly) := by
  induction pieces generalizing assembly with
  | nil => exact .ok trivial
  | cons piece rest ih =>
      rw [List.foldlM_cons]
      exact (assembly.step_delivers withMap children piece).bind fun next _ => ih next

end Assembly

def TracedText.Tidy (woven : TracedText) : Prop :=
  ∀ mapping, woven.provenance = .mapped mapping →
    Segment.Tidy mapping.sources.size mapping.names.size
      (Position.first.behind woven.text.toList) mapping.segments.toList ∧
        mapping.sourceRoot = none

theorem assemble_delivers (children : List TracedText) (pieces : List Piece) :
    Delivers MappingError.isOfParts TracedText.Tidy (assemble children pieces true) := by
  have sound : Delivers MappingError.isOfParts (fun _ => True)
      (assemble children pieces true) := by
    have started := Assembly.coherent_initial children
    rw [assemble, List.size_toArray, List.length_map]
    refine ((Assembly.run_delivers _ true _ pieces).and_of_eq_ok
      fun assembly ran => started.run ran).bind ?_
    intro assembly ran
    obtain ⟨_, coherent⟩ := ran
    split
    · obtain ⟨mapping, made⟩ := coherent.exists_mapping
      rw [made]
      exact .ok trivial
    · exact .ok trivial
  refine (sound.and_of_eq_ok fun woven => assembled_of_assemble).mono ?_
  intro woven isAssembled mapping isMapped
  obtain ⟨_, assembled⟩ := isAssembled
  rcases assembled.provenance with ⟨_, isUnknown⟩ | ⟨_, held, isHeld, _, _, _, noRoot, tidy⟩
  · rw [isUnknown] at isMapped
    cases isMapped
  · rw [isHeld] at isMapped
    cases isMapped
    exact ⟨tidy, noRoot⟩

/-! ### Leaves and trees -/

theorem WireMap.describing_delivers (wire : WireMap) (text : String) :
    Delivers MappingError.isOfParts
      (fun mapping : Mapping => Segment.Tidy mapping.sources.size mapping.names.size
        (Position.first.behind text.toList) mapping.segments.toList ∧ mapping.sourceRoot = none)
      (wire.describing text) := by
  refine wire.decode_delivers.bind fun decoded _ => ?_
  obtain ⟨cut, isCut⟩ := decoded.exists_cutTo (IndexedText.ofString text).endPosition
  have tidy := Mapping.cutTo_eq_ok isCut
  rw [IndexedText.endPosition_ofString] at tidy
  rw [isCut]
  exact .ok tidy

theorem MappedText.mapping_delivers (leaf : MappedText) :
    Delivers MappingError.isOfParts
      (fun mapping : Mapping => Segment.Tidy mapping.sources.size mapping.names.size
        (Position.first.behind leaf.text.toList) mapping.segments.toList ∧
          mapping.sourceRoot = none) leaf.mapping := by
  refine (leaf.map.describing_delivers leaf.text).bind ?_
  intro outer sound
  obtain ⟨tidy, noRoot⟩ := sound
  split
  · exact .ok ⟨tidy, noRoot⟩
  · rename_i inner _
    split
    · exact .ok ⟨tidy, noRoot⟩
    · rename_i innerMap _
      refine (innerMap.describing_delivers inner.text).bind fun innerMapping _ => ?_
      rw [IndexedText.endPosition_ofString]
      exact Mapping.through_delivers tidy noRoot _

namespace SourceTree

theorem weaveMapped_delivers (leaf : MappedText) :
    Delivers MappingError.isOfParts TracedText.Tidy (weaveMapped true leaf) := by
  refine leaf.mapping_delivers.bind fun mapping tidy => .ok ?_
  intro other isOther
  cases isOther
  exact tidy

theorem weaveAuthored_delivers (text identity : String) :
    Delivers MappingError.isOfParts TracedText.Tidy (weaveAuthored true text identity) := by
  obtain ⟨mapping, made⟩ := exists_authoredMapping text identity
  rw [weaveAuthored, made]
  refine .ok ?_
  intro other isOther
  cases isOther
  exact ⟨authoredMapping_tidy made, (Mapping.ofSegments_eq_ok made).2.2.2.2⟩

theorem weavePlain_tidy (text : String) (identity : Option String) :
    (weavePlain text identity).Tidy := by
  intro mapping impossible
  cases identity <;> cases impossible

theorem weaveEdited_delivers (child : TracedText) (edits : EditList) :
    Delivers MappingError.isOfParts TracedText.Tidy (weaveEdited true child edits) := by
  have pieces : Delivers MappingError.isOfParts (fun _ => True)
      (edits.pieces (utf16Length child.text)) := by
    unfold EditList.pieces
    split
    · exact .error rfl
    · exact .ok trivial
  exact pieces.bind fun pieces _ => assemble_delivers [child] pieces

mutual

theorem meaning_delivers (tree : SourceTree) :
    Delivers MappingError.isOfParts TracedText.Tidy (meaning true tree) := by
  cases tree with
  | plain text identity =>
      unfold meaning
      exact .ok (weavePlain_tidy text identity)
  | authored text identity =>
      unfold meaning
      exact weaveAuthored_delivers text identity
  | mapped leaf =>
      unfold meaning
      exact weaveMapped_delivers leaf
  | joined children =>
      unfold meaning
      exact (meanings_delivers children).bind fun results _ => assemble_delivers results _
  | edited child edits =>
      unfold meaning
      exact (meaning_delivers child).bind fun result _ => weaveEdited_delivers result edits

theorem meanings_delivers (trees : List SourceTree) :
    Delivers MappingError.isOfParts (fun _ => True) (meanings true trees) := by
  cases trees with
  | nil =>
      unfold meanings
      exact .ok trivial
  | cons tree rest =>
      unfold meanings
      refine (meaning_delivers tree).bind fun first _ => ?_
      exact (meanings_delivers rest).bind fun _ _ => .ok trivial

end

end SourceTree

/-! ### Renderings -/

/-- What readers of a mapping may rely on, for a text that ends at `stop`. -/
structure Mapping.WellFormed (mapping : Mapping) (stop : Position) : Prop where
  increasing : Segment.Ordered mapping.segments.toList
  numbered : ∀ segment ∈ mapping.segments.toList, 1 ≤ segment.position.line
  inside : ∀ segment ∈ mapping.segments.toList, segment.position < stop
  sourceKnown : ∀ segment ∈ mapping.segments.toList, ∀ location,
    segment.origin = some location → location.source < mapping.sources.size
  nameKnown : ∀ segment ∈ mapping.segments.toList, ∀ location name,
    segment.origin = some location → location.name = some name → name < mapping.names.size
  firstTraced : ∀ front segment back, mapping.segments.toList = front ++ segment :: back →
    (∀ earlier ∈ front, earlier.position.line ≠ segment.position.line) → segment.isMarker = false
  markersApart : ∀ front first second back,
    mapping.segments.toList = front ++ first :: second :: back →
      first.position.line = second.position.line →
        ¬ (first.isMarker = true ∧ second.isMarker = true)
  noRoot : mapping.sourceRoot = none

theorem Mapping.wellFormed_of_tidy {mapping : Mapping} {stop : Position}
    (tidy : Segment.Tidy mapping.sources.size mapping.names.size stop mapping.segments.toList)
    (noRoot : mapping.sourceRoot = none) : mapping.WellFormed stop where
  increasing := tidy.ordered
  numbered := fun segment member => Nat.one_le_iff_ne_zero.mpr (mapping.numbered segment member)
  inside := tidy.inside
  sourceKnown := fun segment member location isLocation =>
    (tidy.inTables segment member location isLocation).1
  nameKnown := fun segment member location name isLocation isName =>
    (tidy.inTables segment member location isLocation).2 name isName
  firstTraced := by
    intro front segment back whole first
    have pruned := tidy.pruned
    rw [whole] at pruned
    exact pruned.isMarker_eq_false_of_first first
  markersApart := by
    intro front first second back whole _
    have pruned := tidy.pruned
    rw [whole] at pruned
    exact pruned.markers_apart
  noRoot := noRoot

namespace SourceTree

/-- The mapping of every rendering is well formed, and no rendering fails because the
parts of a mapping do not go together. -/
theorem rendering_wellFormed (tree : SourceTree) {options : MappingOptions}
    (columns : options.columns = true) :
    (∀ text mapping, tree.rendering options = .ok ⟨text, some mapping⟩ →
      mapping.WellFormed (IndexedText.ofString text).endPosition) ∧
        ∀ cause, tree.rendering options = .error cause → cause.isOfParts = false := by
  have sound := meaning_delivers tree
  rw [← weave_eq_meaning] at sound
  constructor
  · intro text mapping rendered
    obtain ⟨woven, isWoven, sameText, sameMapping⟩ := rendering_eq_ok columns rendered
    have tidy := sound.of_eq_ok woven isWoven
    obtain ⟨held, isHeld, isMapping⟩ := Option.map_eq_some_iff.mp sameMapping.symm
    have isMapped : woven.provenance = .mapped held := by
      cases isProvenance : woven.provenance with
      | unknown =>
          rw [isProvenance] at isHeld
          cases isHeld
      | own identity =>
          rw [isProvenance] at isHeld
          cases isHeld
      | mapped known =>
          rw [isProvenance] at isHeld
          cases isHeld
          rfl
    obtain ⟨isTidy, noRoot⟩ := tidy held isMapped
    simp only at sameText
    rw [IndexedText.endPosition_ofString, sameText, ← isMapping]
    exact Mapping.wellFormed_of_tidy isTidy noRoot
  · intro cause failed
    have shown : Delivers MappingError.isOfParts (fun _ => True) (tree.rendering options) := by
      refine sound.bind fun woven _ => ?_
      cases woven.provenance.mapping? with
      | none => exact .ok trivial
      | some mapping =>
          simp only [Option.mapM_some, underOptions, columns, if_true]
          exact .ok trivial
    exact shown.of_eq_error cause failed

theorem rendering_wellFormed_dangling :
    let tree : SourceTree :=
      .joined
        [.plain "x" none,
          .mapped
            { text := "ab"
              identity := "i"
              map :=
                { sources := [some "s"]
                  sourceRoot := some "r"
                  mappings := "AAAA,CCAA,IDAA" } }]
    ∃ text mapping, tree.rendering {} = .ok ⟨text, some mapping⟩ ∧
      mapping.WellFormed (IndexedText.ofString text).endPosition := by
  intro tree
  have succeeds : (tree.rendering {}).toOption.any (fun rendered => rendered.mapping.isSome) =
      true := by decide +kernel
  obtain ⟨text, mapping, rendered⟩ := exists_mapping_of_rendering succeeds
  exact ⟨text, mapping, rendered, (rendering_wellFormed tree rfl).1 text mapping rendered⟩

end SourceTree

end SourceWeave
