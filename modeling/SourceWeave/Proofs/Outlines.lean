import SourceWeave.Proofs.TextAlone

/-!
What assembling looks at to make text and tables. Children that contribute the same texts and
tables are the same to it, whatever they say of their characters: either both can be assembled or
both end with the same error, and the same text and the same tables come of them.
-/

set_option autoImplicit false

namespace SourceWeave

/-- What a child contributes where it is copied, but for what it says of its characters. -/
structure Contribution where
  text : String
  entries : List SourceRecord
  names : List String
  tracked : Bool

def TracedText.contribution (traced : TracedText) : Contribution where
  text := traced.text
  entries := traced.entries
  names := traced.nameEntries
  tracked := traced.provenance.isTracked

structure Outline where
  text : String
  tables : Option (Array SourceRecord × Array String)
deriving DecidableEq, Repr

def TracedText.outline (woven : TracedText) : Outline where
  text := woven.text
  tables := woven.provenance.mapping?.map fun mapping => (mapping.sources, mapping.names)

section Contributions

variable {left right : List TracedText}
  (same : left.map TracedText.contribution = right.map TracedText.contribution)

include same

theorem TracedText.length_eq_of_contribution : left.length = right.length := by
  rw [← List.length_map TracedText.contribution, same, List.length_map]

theorem TracedText.map_text_of_contribution :
    left.map TracedText.text = right.map TracedText.text := by
  have sameTexts := congrArg (List.map Contribution.text) same
  rwa [List.map_map, List.map_map] at sameTexts

theorem TracedText.map_contribution_seen (withMap : Bool) :
    (left.map (seen withMap)).map contribution = (right.map (seen withMap)).map contribution := by
  cases withMap with
  | true => rw [map_seen_true, map_seen_true, same]
  | false =>
      have sameTexts := congrArg (List.map fun text => Contribution.mk text [] [] false)
        (map_text_of_contribution same)
      rw [List.map_map, List.map_map] at sameTexts ⊢
      exact sameTexts

theorem Piece.map_child?_contribution (piece : Piece) :
    (piece.child? left).map TracedText.contribution =
      (piece.child? right).map TracedText.contribution := by
  cases piece with
  | insert text marked => rfl
  | copy index start stop =>
      rw [child?, child?, ← List.getElem?_map, ← List.getElem?_map, same]

theorem Piece.entries_congr : Piece.entries left = Piece.entries right := by
  funext piece
  have sameChild := congrArg (fun child => child.elim [] Contribution.entries)
    (piece.map_child?_contribution same)
  rwa [Option.elim_map, Option.elim_map] at sameChild

theorem Piece.nameEntries_congr : Piece.nameEntries left = Piece.nameEntries right := by
  funext piece
  have sameChild := congrArg (fun child => child.elim [] Contribution.names)
    (piece.map_child?_contribution same)
  rwa [Option.elim_map, Option.elim_map] at sameChild

theorem Piece.isTracked_congr : Piece.isTracked left = Piece.isTracked right := by
  funext piece
  have sameChild := congrArg (fun child => child.any Contribution.tracked)
    (piece.map_child?_contribution same)
  rwa [Option.any_map, Option.any_map] at sameChild

end Contributions

/-! ### Two runs -/

theorem NameRegistry.eq_of_names {left right : NameRegistry}
    (same : left.names.toList = right.names.toList) : left = right := by
  cases left
  cases right
  exact congrArg NameRegistry.mk (Array.toList_inj.mp same)

namespace Assembly

variable {left right : List TracedText}

/-- Assemblies of the same text and the same tables, which the same children have entered. -/
structure Twin (first second : Assembly) : Prop where
  output : first.output = second.output
  sources : first.sources = second.sources
  names : first.names = second.names
  linked : ∀ index : Nat, (first.links[index]?.join).isSome = (second.links[index]?.join).isSome

namespace Twin

variable {first second firstAfter secondAfter : Assembly} {pieces : List Piece}
  (same : left.map TracedText.contribution = right.map TracedText.contribution)

include same

theorem failure?_step (twin : Twin first second) (piece : Piece) :
    failure? (first.step true (left.map Strand.ofTracedText).toArray piece) =
      failure? (second.step true (right.map Strand.ofTracedText).toArray piece) := by
  cases piece with
  | insert text marked => rfl
  | copy index start stop =>
      have sameChild := congrArg (fun brought => brought[index]?) same
      simp only [List.getElem?_map] at sameChild
      rw [step, step]
      cases isLeft : left[index]? with
      | none =>
          rw [isLeft, Option.map_none, eq_comm, Option.map_eq_none_iff] at sameChild
          have sameCount := TracedText.length_eq_of_contribution same
          simp [copy, isLeft, sameChild, sameCount]
      | some child =>
          rw [isLeft, Option.map_some, eq_comm, Option.map_eq_some_iff] at sameChild
          obtain ⟨other, isRight, sameContribution⟩ := sameChild
          have sameText : other.text = child.text := congrArg Contribution.text sameContribution
          have sameEntries : other.entries = child.entries :=
            congrArg Contribution.entries sameContribution
          rw [failure?_copy_eq isLeft, failure?_copy_eq isRight, failure?_link, failure?_link,
            sameText, sameEntries, twin.sources, twin.linked]

theorem step (twin : Twin first second) (firstCoherent : Coherent left first)
    (secondCoherent : Coherent right second) {piece : Piece}
    (firstStepped : first.step true (left.map Strand.ofTracedText).toArray piece = .ok firstAfter)
    (secondStepped : second.step true (right.map Strand.ofTracedText).toArray piece =
      .ok secondAfter) : Twin firstAfter secondAfter := by
  cases piece with
  | insert text marked =>
      cases firstStepped
      cases secondStepped
      exact ⟨congrArg (IndexedText.append · text) twin.output, twin.sources, twin.names,
        twin.linked⟩
  | copy index start stop =>
      obtain ⟨child, links, isLeft, copied, _⟩ := copy_eq_ok firstCoherent.linked firstStepped
      obtain ⟨other, others, isRight, again, _⟩ := copy_eq_ok secondCoherent.linked secondStepped
      have sameContribution := congrArg (fun brought => brought[index]?) same
      simp only [List.getElem?_map, isLeft, isRight, Option.map_some,
        Option.some.injEq] at sameContribution
      have sameText : child.text = other.text := congrArg Contribution.text sameContribution
      have sameEntries : child.entries = other.entries :=
        congrArg Contribution.entries sameContribution
      have sameNames : child.nameEntries = other.nameEntries :=
        congrArg Contribution.names sameContribution
      constructor
      · rw [copied.output, again.output, twin.output, sameText]
      · apply SourceRegistry.eq_of_entries
        rw [copied.sources, again.sources, twin.sources, sameEntries]
      · apply NameRegistry.eq_of_names
        rw [copied.names, again.names, twin.names, sameNames]
      · intro linkedIndex
        rw [copied.linksAfter, again.linksAfter]
        split
        · rfl
        · exact twin.linked linkedIndex

theorem failure?_run (twin : Twin first second) (firstCoherent : Coherent left first)
    (secondCoherent : Coherent right second) :
    failure? (pieces.foldlM (Assembly.step true (left.map Strand.ofTracedText).toArray) first) =
      failure?
        (pieces.foldlM (Assembly.step true (right.map Strand.ofTracedText).toArray) second) := by
  induction pieces generalizing first second with
  | nil => rfl
  | cons piece rest ih =>
      have sameFailure := twin.failure?_step same piece
      rw [List.foldlM_cons, List.foldlM_cons]
      cases firstStepped : first.step true (left.map Strand.ofTracedText).toArray piece with
      | error cause =>
          rw [firstStepped] at sameFailure
          rw [failure?_eq_some_iff.mp sameFailure.symm]
          rfl
      | ok firstAfter =>
          rw [firstStepped] at sameFailure
          obtain ⟨secondAfter, secondStepped⟩ := failure?_eq_none_iff.mp sameFailure.symm
          rw [secondStepped]
          exact ih (twin.step same firstCoherent secondCoherent firstStepped secondStepped)
            (firstCoherent.step firstStepped) (secondCoherent.step secondStepped)

end Twin

theorem twin_initial (count : Nat) :
    Twin { links := Array.replicate count none } { links := Array.replicate count none } :=
  ⟨rfl, rfl, rfl, fun _ => rfl⟩

end Assembly

/-! ### Outlines -/

theorem Assembled.outline {children : List TracedText} {pieces : List Piece} {woven : TracedText}
    (assembled : Assembled children pieces woven) :
    woven.outline =
      { text := String.ofList (pieces.flatMap (Piece.characters children))
        tables :=
          if pieces.any (Piece.isTracked children) then
            some
              ((SourceRegistry.settle [] (pieces.flatMap (Piece.entries children))).toArray,
                (enlist id [] (pieces.flatMap (Piece.nameEntries children))).toArray)
          else none } := by
  rw [TracedText.outline, ← assembled.characters, String.ofList_toList]
  rcases assembled.provenance with
    ⟨untracked, isUnknown⟩ | ⟨tracked, mapping, isMapped, sources, names, _⟩
  · rw [untracked, isUnknown]
    rfl
  · rw [tracked, isMapped, ← sources, ← names]
    rfl

section Assemble

variable {left right : List TracedText}
  (same : left.map TracedText.contribution = right.map TracedText.contribution)

include same

theorem failure?_assemble_congr (pieces : List Piece) :
    failure? (assemble left pieces true) = failure? (assemble right pieces true) := by
  rw [failure?_assemble, failure?_assemble, ← TracedText.length_eq_of_contribution same]
  apply (Assembly.twin_initial left.length).failure?_run same (Assembly.coherent_initial left)
  rw [TracedText.length_eq_of_contribution same]
  exact Assembly.coherent_initial right

private theorem map_outline_assemble_true (pieces : List Piece) :
    (assemble left pieces true).map TracedText.outline =
      (assemble right pieces true).map TracedText.outline := by
  apply map_eq_of_failure?
  · rw [failure?_map, failure?_assemble_congr same]
  · intro first second isFirst isSecond
    cases assembled : assemble right pieces true with
    | error cause =>
        rw [assembled] at isSecond
        cases isSecond
    | ok woven =>
        rw [assembled] at isSecond
        cases isSecond
        have sameText := TracedText.map_text_of_contribution same
        rw [(assembled_of_assemble isFirst).outline, (assembled_of_assemble assembled).outline,
          Piece.characters_congr sameText, Piece.entries_congr same, Piece.nameEntries_congr same,
          Piece.isTracked_congr same]

theorem map_outline_assemble (pieces : List Piece) (withMap : Bool) :
    (assemble left pieces withMap).map TracedText.outline =
      (assemble right pieces withMap).map TracedText.outline := by
  rw [assemble_eq_seen, assemble_eq_seen withMap right]
  exact map_outline_assemble_true (TracedText.map_contribution_seen same withMap) pieces

end Assemble

end SourceWeave
