import SourceWeave.Proofs.Authored
import SourceWeave.Proofs.Editing
import SourceWeave.Proofs.Joining

/-!
Where the characters of a tree come from, told by recursion on the tree and without
positions of the woven text, and that a weave says just this of every character.
-/

set_option autoImplicit false

namespace SourceWeave

namespace TracedChar

def ownFrom (identity : String) (place : Position) : List Char → List TracedChar
  | [] => []
  | character :: rest =>
      ⟨character, some ⟨some identity, place.line, place.column⟩, none⟩ ::
        ownFrom identity (place.next character) rest

/-- Characters of a file as it was written. The newline of an empty line has no origin. -/
def authoredFrom (identity : String) (place : Position) : List Char → List TracedChar
  | [] => []
  | character :: rest =>
      (if character = '\n' ∧ place.column = 0 then silent character
        else ⟨character, some ⟨some identity, place.line, place.column⟩, none⟩) ::
          authoredFrom identity (place.next character) rest

/-- What is left between edits, from `start` on, with replacements of no origin. -/
def spliced (traced : List TracedChar) (start : Nat) : List Edit → List TracedChar
  | [] => cut start (Utf16.length (traced.map character)) traced
  | edit :: rest =>
      cut start edit.start traced ++ edit.replacement.toList.map silent ++
        spliced traced edit.stop rest

end TracedChar

namespace SourceTree

mutual

/-- The characters of a tree with what is known of them. A mapped text is known by its
own mapping. -/
def origins : SourceTree → List TracedChar
  | .plain text none => text.toList.map TracedChar.silent
  | .plain text (some identity) => TracedChar.ownFrom identity Position.first text.toList
  | .authored text identity => TracedChar.authoredFrom identity Position.first text.toList
  | .mapped leaf =>
      match leaf.mapping with
      | .ok mapping => (TracedText.mk leaf.text (.mapped mapping)).annotated
      | .error _ => []
  | .joined children => originsAll children
  | .edited child edits => TracedChar.spliced (origins child) 0 edits.edits

def originsAll : List SourceTree → List TracedChar
  | [] => []
  | tree :: rest => origins tree ++ originsAll rest

end

mutual

def EditsAligned : SourceTree → Prop
  | .joined children => EditsAlignedAll children
  | .edited child edits =>
      EditsAligned child ∧
        ∀ woven, child.weave true = .ok woven → ∀ edit ∈ edits.edits,
          Utf16.Aligned woven.text.toList edit.start ∧ Utf16.Aligned woven.text.toList edit.stop
  | _ => True

def EditsAlignedAll : List SourceTree → Prop
  | [] => True
  | tree :: rest => EditsAligned tree ∧ EditsAlignedAll rest

end

theorem annotated_withFile (text : String) (mapping : Mapping) (file : Option String) :
    (TracedText.mk text (.mapped { mapping with file })).annotated =
      (TracedText.mk text (.mapped mapping)).annotated := by
  rw [TracedText.annotated_eq, TracedText.annotated_eq]
  rfl

theorem annotated_plain (text : String) (identity : Option String) :
    (weavePlain text identity).annotated = origins (.plain text identity) := by
  cases identity with
  | none =>
      have silentCells : (weavePlain text none).cells = text.toList.map Cell.silent :=
        Cell.along_silent fun _ _ _ => rfl
      rw [TracedText.annotated_eq_map_cells, silentCells, TracedChar.map_traced_silent, origins]
  | some identity =>
      have fromPlace (place : Position) (characters : List Char) :
          (TracedText.mk text (.own identity)).annotatedFrom place characters =
            TracedChar.ownFrom identity place characters := by
        induction characters generalizing place with
        | nil => rfl
        | cons character rest ih =>
            rw [TracedText.annotatedFrom, TracedChar.ownFrom, ih]
            rfl
      unfold origins
      exact fromPlace _ _

theorem annotated_authored {text identity : String} {mapping : Mapping}
    (made : authoredMapping text identity = .ok mapping) :
    (TracedText.mk text (.mapped mapping)).annotated = origins (.authored text identity) := by
  have fromLead (lead characters : List Char) (whole : text.toList = lead ++ characters) :
      TracedChar.annotate mapping.reading? (Position.first.behind lead) characters =
        TracedChar.authoredFrom identity (Position.first.behind lead) characters := by
    induction characters generalizing lead with
    | nil => rfl
    | cons character rest ih =>
        have next : (Position.first.behind lead).next character =
            Position.first.behind (lead ++ [character]) := by
          rw [Position.behind_append]
          rfl
        rw [TracedChar.annotate, TracedChar.authoredFrom, told_authored made whole, next, ih]
        rw [whole, List.append_assoc, List.singleton_append]
  rw [TracedText.annotated_eq, origins]
  exact fromLead [] text.toList rfl

/-! ### Joining and editing -/

theorem annotated_joined {children : List TracedText} {woven : TracedText}
    (joined : weaveJoined true children = .ok woven) :
    woven.annotated = children.flatMap TracedText.annotated := by
  rw [(assemble_annotated (TracedText.joinedPieces_aligned children) joined).2]
  apply flatMap_joinedPieces
  intro index child isChild
  rw [Piece.annotated, isChild, Option.elim_some]
  rw [TracedChar.cut_eq, ← child.extent_annotated, Utf16.cut_whole]

theorem map_traced_spliced (cells : List Cell) (start : Nat) (edits : List Edit) :
    (Cell.spliced cells start edits).map Cell.traced =
      TracedChar.spliced (cells.map Cell.traced) start edits := by
  have sameExtent : Utf16.length ((cells.map Cell.traced).map TracedChar.character) =
      Utf16.extent Cell.character cells := by
    rw [List.map_map]
    rfl
  induction edits generalizing start with
  | nil =>
      rw [Cell.spliced_none, TracedChar.spliced, TracedChar.map_traced_headed,
        TracedChar.map_traced_cut, sameExtent]
  | cons edit rest ih =>
      rw [Cell.spliced_cons, TracedChar.spliced, List.map_append, List.map_append, ih,
        TracedChar.map_traced_headed, TracedChar.map_traced_cut, TracedChar.map_traced_silent,
        List.append_assoc]

theorem annotated_edited {child woven : TracedText} {edits : EditList}
    (aligned : ∀ edit ∈ edits.edits, edit.Aligned child.text.toList)
    (edited : weaveEdited true child edits = .ok woven) :
    woven.annotated = TracedChar.spliced child.annotated 0 edits.edits := by
  rw [woven.annotated_eq_map_cells, (editOf_of_weaveEdited edited).cells aligned,
    map_traced_spliced, child.annotated_eq_map_cells]

/-! ### Trees -/

mutual

theorem annotated_of_meaning {tree : SourceTree} {woven : TracedText}
    (isWoven : meaning true tree = .ok woven) (aligned : tree.EditsAligned) :
    woven.annotated = tree.origins := by
  cases tree with
  | plain text identity =>
      unfold meaning at isWoven
      cases isWoven
      exact annotated_plain text identity
  | authored text identity =>
      obtain ⟨mapping, made, rfl⟩ := exists_mapping_of_authored isWoven
      exact annotated_authored made
  | mapped leaf =>
      obtain ⟨mapping, made, rfl⟩ := exists_mapping_of_mapped isWoven
      rw [origins, made]
      exact annotated_withFile _ _ _
  | joined children =>
      unfold meaning at isWoven
      obtain ⟨results, areWoven, isWoven⟩ := exists_of_bind_eq_ok isWoven
      rw [annotated_joined isWoven, origins]
      exact annotated_of_meanings areWoven aligned
  | edited child edits =>
      unfold meaning at isWoven
      obtain ⟨result, childWoven, isWoven⟩ := exists_of_bind_eq_ok isWoven
      rw [EditsAligned] at aligned
      have boundaries := aligned.2 result (by rw [weave_eq_meaning, childWoven])
      rw [annotated_edited boundaries isWoven, origins, annotated_of_meaning childWoven aligned.1]

theorem annotated_of_meanings {trees : List SourceTree} {results : List TracedText}
    (areWoven : meanings true trees = .ok results) (aligned : EditsAlignedAll trees) :
    results.flatMap TracedText.annotated = originsAll trees := by
  cases trees with
  | nil =>
      unfold meanings at areWoven
      cases areWoven
      rfl
  | cons tree rest =>
      unfold meanings at areWoven
      obtain ⟨first, firstWoven, areWoven⟩ := exists_of_bind_eq_ok areWoven
      obtain ⟨others, othersWoven, areWoven⟩ := exists_of_bind_eq_ok areWoven
      cases areWoven
      rw [EditsAlignedAll] at aligned
      rw [List.flatMap_cons, originsAll, annotated_of_meaning firstWoven aligned.1,
        annotated_of_meanings othersWoven aligned.2]

end

/-- Looking up any character of a woven tree in the woven mapping gives the origin that
the tree gives it. -/
theorem annotated_rendering {tree : SourceTree} {options : MappingOptions} {text : String}
    {mapping : Mapping} (aligned : tree.EditsAligned) (columns : options.columns = true)
    (rendered : tree.rendering options = .ok ⟨text, some mapping⟩) :
    (TracedText.mk text (.mapped mapping)).annotated = tree.origins := by
  obtain ⟨woven, isWoven, sameText, sameMapping⟩ := rendering_eq_ok columns rendered
  cases woven with
  | mk wovenText provenance =>
      cases provenance with
      | unknown => cases sameMapping
      | own identity => cases sameMapping
      | mapped held =>
          cases sameText
          cases sameMapping
          rw [annotated_withFile]
          rw [weave_eq_meaning] at isWoven
          exact annotated_of_meaning isWoven aligned

theorem annotated_rendering_joined :
    let tree : SourceTree :=
      .joined
        [.authored "a\n\nb" "f",
          .edited (.plain "xyz" (some "g"))
            { edits := [⟨1, 2, "Q"⟩]
              forward := by decide
              disjoint := List.pairwise_singleton _ _ }]
    ∃ text mapping, tree.rendering {} = .ok ⟨text, some mapping⟩ ∧
      (TracedText.mk text (.mapped mapping)).annotated =
        [⟨'a', some ⟨some "f", 1, 0⟩, none⟩, ⟨'\n', some ⟨some "f", 1, 1⟩, none⟩,
          ⟨'\n', none, none⟩, ⟨'b', some ⟨some "f", 3, 0⟩, none⟩,
          ⟨'x', some ⟨some "g", 1, 0⟩, none⟩, ⟨'Q', none, none⟩,
          ⟨'z', some ⟨some "g", 1, 2⟩, none⟩] := by
  intro tree
  have succeeds : (tree.rendering {}).toOption.any (fun rendered => rendered.mapping.isSome) =
      true := by decide +kernel
  have aligned : tree.EditsAligned := by
    refine ⟨trivial, ⟨trivial, ?_⟩, trivial⟩
    intro woven isWoven
    rw [weave_eq_meaning, meaning] at isWoven
    cases isWoven
    decide
  obtain ⟨text, mapping, rendered⟩ := exists_mapping_of_rendering succeeds
  refine ⟨text, mapping, rendered, ?_⟩
  rw [annotated_rendering aligned rfl rendered]
  decide +kernel

end SourceTree

end SourceWeave
