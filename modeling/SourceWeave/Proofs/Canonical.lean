import SourceWeave.Proofs.Assembled

/-!
Woven texts in canonical form. Of such a text nothing is known, or its mapping is in its
shortest form over tables that list every key once. Assembling always gives this form, and
a text in this form is determined by what it says of its places and by its tables.
-/

set_option autoImplicit false

namespace SourceWeave

/-- A mapping in its shortest form, for a text that ends at `stop`, over tables as they
grow when they are entered one key at a time. -/
structure Mapping.Canonical (mapping : Mapping) (stop : Position) : Prop where
  noFile : mapping.file = none
  noRoot : mapping.sourceRoot = none
  distinctSources : (mapping.sources.toList.map SourceRecord.identity).Nodup
  distinctNames : mapping.names.toList.Nodup
  settled : ∀ entry ∈ mapping.sources.toList, entry.settled = entry
  tidy : Segment.Tidy mapping.sources.size mapping.names.size stop mapping.segments.toList

namespace TracedText

inductive Canonical (traced : TracedText) : Prop
  | unknown (isUnknown : traced.provenance = .unknown)
  | mapped {mapping : Mapping} (isMapped : traced.provenance = .mapped mapping)
      (canonical : mapping.Canonical (Position.first.behind traced.text.toList))

theorem untracked_brings {texts : List TracedText}
    (untracked : (texts.any fun traced => traced.provenance.isTracked) = false) :
    texts.flatMap TracedText.entries = [] ∧ texts.flatMap TracedText.nameEntries = [] := by
  have alone {traced : TracedText} (member : traced ∈ texts) : traced.provenance = .unknown := by
    have notTracked := List.any_eq_false.mp untracked traced member
    cases isProvenance : traced.provenance with
    | unknown => rfl
    | own identity =>
        rw [isProvenance] at notTracked
        exact absurd rfl notTracked
    | mapped mapping =>
        rw [isProvenance] at notTracked
        exact absurd rfl notTracked
  constructor
  · apply List.flatMap_eq_nil_iff.mpr
    intro traced member
    rw [entries, alone member]
  · apply List.flatMap_eq_nil_iff.mpr
    intro traced member
    rw [nameEntries, alone member]

namespace Canonical

variable {left right : TracedText}

theorem settle_entries (canonical : left.Canonical) :
    SourceRegistry.settle [] left.entries = left.entries := by
  unfold entries
  cases canonical with
  | unknown isUnknown =>
      rw [isUnknown]
      rfl
  | mapped isMapped canonical =>
      rw [isMapped]
      exact SourceRegistry.settle_of_distinct canonical.settled canonical.distinctSources

theorem enlist_nameEntries (canonical : left.Canonical) :
    enlist id [] left.nameEntries = left.nameEntries := by
  unfold nameEntries
  cases canonical with
  | unknown isUnknown =>
      rw [isUnknown]
      rfl
  | mapped isMapped canonical =>
      rw [isMapped]
      apply enlist_of_distinct id
      rw [List.nil_append, List.map_id]
      exact canonical.distinctNames

theorem eq_of_reading (leftCanonical : left.Canonical) (rightCanonical : right.Canonical)
    (sameText : left.text = right.text)
    (sameTracked : left.provenance.isTracked = right.provenance.isTracked)
    (sameEntries : left.entries = right.entries)
    (sameNames : left.nameEntries = right.nameEntries)
    (same : ∀ place, Position.first ≤ place → place < Position.first.behind left.text.toList →
      left.reading? place = right.reading? place) : left = right := by
  have sameProvenance : left.provenance = right.provenance := by
    unfold entries at sameEntries
    unfold nameEntries at sameNames
    cases leftCanonical with
    | unknown isUnknown =>
        cases rightCanonical with
        | unknown otherUnknown => rw [isUnknown, otherUnknown]
        | mapped otherMapped _ =>
            rw [isUnknown, otherMapped] at sameTracked
            cases sameTracked
    | mapped isMapped leftMapping =>
        cases rightCanonical with
        | unknown otherUnknown =>
            rw [isMapped, otherUnknown] at sameTracked
            cases sameTracked
        | mapped otherMapped rightMapping =>
            rw [isMapped, otherMapped] at sameEntries sameNames
            rw [← sameText] at rightMapping
            rw [isMapped, otherMapped, Provenance.mapped.injEq]
            refine Mapping.eq_of_reading (Array.toList_inj.mp sameEntries)
              (Array.toList_inj.mp sameNames) (leftMapping.noFile.trans rightMapping.noFile.symm)
              (leftMapping.noRoot.trans rightMapping.noRoot.symm) leftMapping.distinctSources
              leftMapping.distinctNames leftMapping.tidy rightMapping.tidy ?_
            intro place numbered inText
            have told := same place numbered inText
            rwa [reading?, reading?, isMapped, otherMapped] at told
  cases left
  cases right
  simp only at sameText sameProvenance
  rw [sameText, sameProvenance]

end Canonical

end TracedText

/-! ### What has been put together -/

/-- A canonical text whose tables list what was brought to them, once each. -/
structure Composed (tracked : Bool) (entries : List SourceRecord) (names : List String)
    (woven : TracedText) : Prop where
  canonical : woven.Canonical
  isTracked : woven.provenance.isTracked = tracked
  entries : woven.entries = SourceRegistry.settle [] entries
  nameEntries : woven.nameEntries = enlist id [] names

section Composed

variable {tracked : Bool} {entries : List SourceRecord} {names : List String}
  {woven other : TracedText}

theorem composed_of_provenance (nothing : tracked = false → entries = [] ∧ names = [])
    (provenance :
      (tracked = false ∧ woven.provenance = .unknown) ∨
        (tracked = true ∧ ∃ mapping, woven.provenance = .mapped mapping ∧
          mapping.sources.toList = SourceRegistry.settle [] entries ∧
          mapping.names.toList = enlist id [] names ∧
          mapping.file = none ∧ mapping.sourceRoot = none ∧
          Segment.Tidy mapping.sources.size mapping.names.size
            (Position.first.behind woven.text.toList) mapping.segments.toList)) :
    Composed tracked entries names woven := by
  rcases provenance with
    ⟨untracked, isUnknown⟩ |
      ⟨isTracked, mapping, isMapped, sources, nameTable, noFile, noRoot, tidy⟩
  · obtain ⟨noEntries, noNames⟩ := nothing untracked
    exact
      { canonical := .unknown isUnknown
        isTracked := by rw [isUnknown, untracked]; rfl
        entries := by rw [TracedText.entries, isUnknown, noEntries]; rfl
        nameEntries := by rw [TracedText.nameEntries, isUnknown, noNames]; rfl }
  · have noSources : (([] : List SourceRecord).map SourceRecord.identity).Nodup := List.nodup_nil
    have noNames : (([] : List String).map id).Nodup := List.nodup_nil
    have distinctNames := enlist_nodup id noNames names
    rw [List.map_id, ← nameTable] at distinctNames
    have canonical : mapping.Canonical (Position.first.behind woven.text.toList) :=
      { noFile
        noRoot
        distinctSources := by
          rw [sources]
          exact SourceRegistry.settle_nodup noSources entries
        distinctNames
        settled := by
          intro entry member
          rw [sources] at member
          refine SourceRegistry.settled_of_mem_settle ?_ member
          intro other impossible
          cases impossible
        tidy }
    exact
      { canonical := .mapped isMapped canonical
        isTracked := by rw [isMapped, isTracked]; rfl
        entries := by rw [TracedText.entries, isMapped]; exact sources
        nameEntries := by rw [TracedText.nameEntries, isMapped]; exact nameTable }

/-- Entering the tables of what was composed is entering what it was composed of. -/
theorem Composed.settle_entries (composed : Composed tracked entries names woven)
    (held : List SourceRecord) :
    SourceRegistry.settle held woven.entries = SourceRegistry.settle held entries := by
  rw [composed.entries, SourceRegistry.settle_settle]

theorem Composed.enlist_nameEntries (composed : Composed tracked entries names woven)
    (held : List String) : enlist id held woven.nameEntries = enlist id held names := by
  rw [composed.nameEntries, enlist_enlist]
  rfl

theorem Composed.congr (composed : Composed tracked entries names woven) {otherTracked : Bool}
    {otherEntries : List SourceRecord} {otherNames : List String}
    (sameTracked : tracked = otherTracked)
    (sameEntries : SourceRegistry.settle [] entries = SourceRegistry.settle [] otherEntries)
    (sameNames : enlist id [] names = enlist id [] otherNames) :
    Composed otherTracked otherEntries otherNames woven where
  canonical := composed.canonical
  isTracked := composed.isTracked.trans sameTracked
  entries := composed.entries.trans sameEntries
  nameEntries := composed.nameEntries.trans sameNames

theorem Composed.trans (composed : Composed tracked entries names woven)
    (again : Composed woven.provenance.isTracked woven.entries woven.nameEntries other) :
    Composed tracked entries names other :=
  again.congr composed.isTracked (composed.settle_entries []) (composed.enlist_nameEntries [])

theorem TracedText.Canonical.composed (canonical : woven.Canonical) :
    Composed woven.provenance.isTracked woven.entries woven.nameEntries woven where
  canonical := canonical
  isTracked := rfl
  entries := canonical.settle_entries.symm
  nameEntries := canonical.enlist_nameEntries.symm

theorem Composed.unique (composed : Composed tracked entries names woven)
    (again : Composed tracked entries names other) (sameText : woven.text = other.text)
    (same : ∀ place, Position.first ≤ place → place < Position.first.behind woven.text.toList →
      woven.reading? place = other.reading? place) : woven = other :=
  composed.canonical.eq_of_reading again.canonical sameText
    (composed.isTracked.trans again.isTracked.symm) (composed.entries.trans again.entries.symm)
    (composed.nameEntries.trans again.nameEntries.symm) same

/-- Cells tell the text and everything that is said of it. -/
theorem Composed.unique_of_cells (composed : Composed tracked entries names woven)
    (again : Composed tracked entries names other) (sameCells : woven.cells = other.cells) :
    woven = other := by
  have sameCharacters : woven.text.toList = other.text.toList := by
    rw [← woven.map_character_cells, sameCells, other.map_character_cells]
  apply composed.unique again (String.toList_inj.mp sameCharacters)
  rw [TracedText.cells, TracedText.cells, ← sameCharacters] at sameCells
  exact Cell.along_eq_iff.mp sameCells

end Composed

/-! ### Assembling -/

namespace Piece

variable {children : List TracedText}

theorem untracked_brings {pieces : List Piece}
    (untracked : pieces.any (isTracked children) = false) :
    pieces.flatMap (entries children) = [] ∧ pieces.flatMap (nameEntries children) = [] := by
  have alone {piece : Piece} (member : piece ∈ pieces) :
      entries children piece = [] ∧ nameEntries children piece = [] := by
    have notTracked := List.any_eq_false.mp untracked piece member
    rw [isTracked] at notTracked
    rw [entries, nameEntries]
    cases isChild : piece.child? children with
    | none => exact ⟨rfl, rfl⟩
    | some child =>
        rw [isChild, Option.any_some, Bool.not_eq_true] at notTracked
        have childUntracked : [child].any (fun traced => traced.provenance.isTracked) = false := by
          rw [List.any_cons, notTracked]
          rfl
        have brought := TracedText.untracked_brings childUntracked
        rwa [List.flatMap_singleton, List.flatMap_singleton] at brought
  constructor
  · apply List.flatMap_eq_nil_iff.mpr
    exact fun piece member => (alone member).1
  · apply List.flatMap_eq_nil_iff.mpr
    exact fun piece member => (alone member).2

end Piece

theorem Assembled.composed {children : List TracedText} {pieces : List Piece}
    {woven : TracedText} (assembled : Assembled children pieces woven) :
    Composed (pieces.any (Piece.isTracked children)) (pieces.flatMap (Piece.entries children))
      (pieces.flatMap (Piece.nameEntries children)) woven :=
  composed_of_provenance Piece.untracked_brings assembled.provenance

end SourceWeave
