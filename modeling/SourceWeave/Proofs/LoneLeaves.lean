import SourceWeave.Proofs.Listings
import SourceWeave.Proofs.WellFormed

/-!
Leaves by themselves. To join a leaf alone, or to edit nothing in it, enters its tables into new
ones, which list every key once. A leaf is left as it is exactly if its own tables do so too.
-/

set_option autoImplicit false

namespace SourceWeave

/-- Every source and every name stands in the tables once. -/
def Mapping.ListsOnce (mapping : Mapping) : Prop :=
  (mapping.sources.toList.map SourceRecord.identity).Nodup ∧ mapping.names.toList.Nodup

instance (mapping : Mapping) : Decidable mapping.ListsOnce :=
  inferInstanceAs (Decidable (_ ∧ _))

namespace SourceTree

theorem meaning_join_singleton (withMap : Bool) (tree : SourceTree) :
    meaning withMap (join [tree]) = meaning withMap (.edited tree EditList.nothing) := by
  rw [join_singleton, meaning, meaning, meanings]
  cases meaning withMap tree with
  | error cause => rfl
  | ok woven => exact weaveJoined_singleton woven

theorem weaveEdited_nothing_iff {withMap : Bool} {woven : TracedText} :
    weaveEdited withMap woven EditList.nothing = .ok woven ↔
      woven.Canonical ∧ woven.seen withMap = woven := by
  constructor
  · exact canonical_of_weaveEdited
  · intro unchanged
    obtain ⟨canonical, isSeen⟩ := unchanged
    rw [weaveEdited_eq_seen, isSeen]
    exact weaveEdited_nothing canonical

theorem meaning_edited_nothing_iff {withMap : Bool} {tree : SourceTree} :
    meaning withMap (.edited tree EditList.nothing) = meaning withMap tree ↔
      ∀ woven, meaning withMap tree = .ok woven → woven.Canonical ∧ woven.seen withMap = woven := by
  rw [meaning]
  cases meaning withMap tree with
  | error cause =>
      constructor
      · intro _ woven impossible
        cases impossible
      · intro _
        rfl
  | ok woven =>
      rw [ok_bind, weaveEdited_nothing_iff]
      constructor
      · intro unchanged other same
        cases same
        exact unchanged
      · intro unchanged
        exact unchanged woven rfl

theorem exists_text_of_leaf {leaf : SourceTree} {outcome : Except MappingError Mapping}
    (isLeaf : leaf.leafMapping? = some outcome) :
    ∃ text, meaning false leaf = .ok ⟨text, .unknown⟩ ∧
      meaning true leaf = outcome.map fun mapping =>
        ⟨text, .mapped { mapping with file := none }⟩ := by
  cases leaf with
  | plain text identity => cases isLeaf
  | authored text identity =>
      cases isLeaf
      refine ⟨text, by rw [meaning]; rfl, ?_⟩
      obtain ⟨mapping, made⟩ := exists_authoredMapping text identity
      have noFile := (Mapping.ofSegments_eq_ok made).2.2.2.1
      rw [meaning, weaveAuthored, made]
      cases mapping
      cases noFile
      rfl
  | mapped leaf =>
      cases isLeaf
      refine ⟨leaf.text, by rw [meaning]; rfl, ?_⟩
      rw [meaning, weaveMapped]
      cases leaf.mapping <;> rfl
  | joined children => cases isLeaf
  | edited child edits => cases isLeaf

/-- All that a leaf's mapping may lack of canonical form are tables without repetition. -/
theorem canonical_leaf_iff {leaf : SourceTree} {woven : TracedText} {mapping : Mapping}
    (isWoven : meaning true leaf = .ok woven)
    (isMapped : woven.provenance = .mapped { mapping with file := none }) :
    woven.Canonical ↔ mapping.ListsOnce := by
  constructor
  · intro canonical
    cases canonical with
    | unknown isUnknown =>
        rw [isMapped] at isUnknown
        cases isUnknown
    | mapped isHeld canonical =>
        rw [isMapped] at isHeld
        cases isHeld
        exact ⟨canonical.distinctSources, canonical.distinctNames⟩
  · intro listsOnce
    obtain ⟨distinctSources, distinctNames⟩ := listsOnce
    obtain ⟨tidy, noRoot⟩ := (meaning_delivers leaf).of_eq_ok woven isWoven _ isMapped
    have settled := entries_settled isWoven
    rw [TracedText.entries, isMapped] at settled
    exact .mapped isMapped
      { noFile := rfl
        noRoot
        distinctSources
        distinctNames
        settled
        tidy }

/-- A leaf with a mapping that is joined alone, or in which nothing is edited, is woven to the
same, or fails with the same error, exactly if its mapping lists every source and every name
once. The text alone is always the same. -/
theorem weave_lone_leaf {leaf : SourceTree} {outcome : Except MappingError Mapping}
    (isLeaf : leaf.leafMapping? = some outcome) :
    ∃ edited, leaf.edit [] = .ok edited ∧
      (∀ withMap, edited.weave withMap = (join [leaf]).weave withMap) ∧
      (join [leaf]).weave false = leaf.weave false ∧
      ((join [leaf]).weave true = leaf.weave true ↔
        ∀ mapping, outcome = .ok mapping → mapping.ListsOnce) := by
  obtain ⟨text, isText, isMapped⟩ := exists_text_of_leaf isLeaf
  refine ⟨.edited leaf EditList.nothing, edit_eq_ok_iff.mpr ⟨_, rfl, rfl⟩, ?_, ?_, ?_⟩
  · intro withMap
    rw [weave_eq_meaning, weave_eq_meaning, meaning_join_singleton]
  · rw [weave_eq_meaning, weave_eq_meaning, meaning_join_singleton, meaning_edited_nothing_iff]
    intro woven isWoven
    rw [isText, Except.ok.injEq] at isWoven
    rw [← isWoven]
    exact ⟨.unknown rfl, rfl⟩
  · rw [weave_eq_meaning, weave_eq_meaning, meaning_join_singleton, meaning_edited_nothing_iff]
    constructor
    · intro unchanged mapping isMapping
      rw [isMapping] at isMapped
      exact (canonical_leaf_iff isMapped rfl).mp (unchanged _ isMapped).1
    · intro listsOnce woven isWoven
      cases isMapping : outcome with
      | error cause =>
          rw [isMapped, isMapping] at isWoven
          cases isWoven
      | ok mapping =>
          have provenance : woven.provenance = .mapped { mapping with file := none } := by
            rw [isMapped, isMapping] at isWoven
            cases isWoven
            rfl
          exact ⟨(canonical_leaf_iff isWoven provenance).mpr (listsOnce mapping isMapping), rfl⟩

theorem weave_lone_leaf_inner :
    let text : MappedText :=
      { text := "ab\ncd"
        identity := "r/i"
        map :=
          { file := some "out"
            sourceRoot := some "r"
            sources := [some "i", some "unused", none]
            names := ["n"]
            mappings := "AAAAA,CEAC;AFAA" }
        inner := some { text := "xy", map := some { sources := [some "s"], mappings := "AAAA" } } }
    let leaf : SourceTree := .mapped text
    ∃ edited woven, leaf.leafMapping? = some text.mapping ∧ leaf.edit [] = .ok edited ∧
      leaf.weave true = .ok woven ∧ (join [leaf]).weave true = .ok woven ∧
      edited.weave true = .ok woven := by
  intro text leaf
  have succeeds : (leaf.weave true).isOk = true := by decide +kernel
  have listed : text.mapping.toOption.all (fun mapping => decide mapping.ListsOnce) = true := by
    decide +kernel
  obtain ⟨woven, isWoven⟩ := exists_of_isOk succeeds
  have isLeaf : leaf.leafMapping? = some text.mapping := rfl
  obtain ⟨edited, isEdited, sameEdited, _, unchanged⟩ := weave_lone_leaf isLeaf
  have joined : (join [leaf]).weave true = leaf.weave true := by
    apply unchanged.mpr
    intro mapping isMapping
    rw [isMapping] at listed
    exact of_decide_eq_true listed
  exact ⟨edited, woven, isLeaf, isEdited, isWoven, joined.trans isWoven,
    (sameEdited true).trans (joined.trans isWoven)⟩

/-- A map that lists a source twice: of the two only one is left. -/
theorem weave_lone_leaf_repeated :
    let leaf : SourceTree :=
      .mapped
        { text := "ab"
          identity := "i"
          map := { sources := [some "s", some "s"], mappings := "AAAA,CCAC" } }
    (leaf.weave true).isOk = true ∧ (join [leaf]).weave true ≠ leaf.weave true := by
  intro leaf
  have alone : (leaf.weave true).toOption.map (·.entries.length) = some 2 := by decide +kernel
  have joined : ((join [leaf]).weave true).toOption.map (·.entries.length) = some 1 := by
    decide +kernel
  refine ⟨by decide +kernel, ?_⟩
  intro same
  rw [same, alone] at joined
  cases joined

end SourceTree

end SourceWeave
