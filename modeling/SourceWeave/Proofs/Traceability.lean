import SourceWeave.Proofs.Folding
import SourceWeave.Proofs.Listings

/-!
Which trees have a mapping. A node tells of its origin whatever one of its children tells of, also
if nothing is left of the child's text. So there is a mapping exactly if some leaf is not plain text
without an identity, unless that leaf is plain text and the whole tree.
-/

set_option autoImplicit false

namespace SourceWeave

/-- What has been put together has no identity of its own, so it has a mapping if anything is known
of it. -/
theorem TracedText.Canonical.isSome_mapping? {traced : TracedText} (canonical : traced.Canonical) :
    traced.provenance.mapping?.isSome = traced.provenance.isTracked := by
  cases canonical with
  | unknown isUnknown => rw [isUnknown]; rfl
  | mapped isMapped _ => rw [isMapped]; rfl

namespace SourceTree

/-- A file or a mapped text anywhere in the tree, or plain text with an identity below its root. -/
def Traceable (tree : SourceTree) : Prop :=
  (∃ text identity, .authored text identity ∈ tree.leaves) ∨
    (∃ leaf, .mapped leaf ∈ tree.leaves) ∨
      ∃ text identity, .plain text (some identity) ∈ tree.leaves ∧
        tree ≠ .plain text (some identity)

/-! ### Leaves -/

def tellsOrigin (leaves : List SourceTree) : Bool :=
  leaves.any fun leaf => !leaf.isAnonymous

theorem tellsOrigin_append (front back : List SourceTree) :
    tellsOrigin (front ++ back) = (tellsOrigin front || tellsOrigin back) :=
  List.any_append

theorem leavesAll_append (front back : List SourceTree) :
    leavesAll (front ++ back) = leavesAll front ++ leavesAll back := by
  induction front with
  | nil => rfl
  | cons tree rest ih => rw [List.cons_append, leavesAll, leavesAll, ih, List.append_assoc]

theorem tellsOrigin_leavesAll_iff {trees : List SourceTree} :
    tellsOrigin (leavesAll trees) = true ↔
      ∃ tree ∈ trees, ∃ leaf ∈ tree.leaves, leaf.isAnonymous = false := by
  induction trees with
  | nil => simp [leavesAll, tellsOrigin]
  | cons tree rest ih =>
      rw [leavesAll, tellsOrigin_append, Bool.or_eq_true, ih]
      simp [tellsOrigin]

mutual

theorem isComposed_of_mem_leaves {tree leaf : SourceTree} (member : leaf ∈ tree.leaves) :
    leaf.isComposed = false := by
  cases tree with
  | plain text identity => rw [List.mem_singleton.mp member]; rfl
  | authored text identity => rw [List.mem_singleton.mp member]; rfl
  | mapped mapped => rw [List.mem_singleton.mp member]; rfl
  | joined children =>
      rw [leaves] at member
      exact isComposed_of_mem_leavesAll member
  | edited child edits =>
      rw [leaves] at member
      exact isComposed_of_mem_leaves member

theorem isComposed_of_mem_leavesAll {trees : List SourceTree} {leaf : SourceTree}
    (member : leaf ∈ leavesAll trees) : leaf.isComposed = false := by
  cases trees with
  | nil => cases member
  | cons tree rest =>
      rw [leavesAll] at member
      rcases List.mem_append.mp member with inTree | inRest
      · exact isComposed_of_mem_leaves inTree
      · exact isComposed_of_mem_leavesAll inRest

end

theorem tellsOrigin_addChild (held : List SourceTree) (child : SourceTree) :
    tellsOrigin (leavesAll (addChild held child)) =
      tellsOrigin (leavesAll (held ++ [child])) := by
  rcases addChild_eq_or held child with behind | ⟨lead, front, back, whole, isPlain, madeOne⟩
  · rw [behind]
  · rw [madeOne, whole, isPlain, leavesAll_append, leavesAll_append, leavesAll_append]
    simp [tellsOrigin, leavesAll, leaves, isAnonymous]

theorem tellsOrigin_join (children : List SourceTree) :
    tellsOrigin (join children).leaves = tellsOrigin (leavesAll children) := by
  have fromHeld (held : List SourceTree) :
      tellsOrigin (leavesAll (children.foldl addChild held)) =
        tellsOrigin (leavesAll (held ++ children)) := by
    induction children generalizing held with
    | nil => rw [List.append_nil]; rfl
    | cons child rest ih =>
        rw [List.foldl_cons, ih, List.append_cons, leavesAll_append, leavesAll_append _ rest,
          tellsOrigin_append, tellsOrigin_append, tellsOrigin_addChild]
  rw [join, leaves]
  exact fromHeld []

theorem not_traceable_plain (text : String) (identity : Option String) :
    ¬ (SourceTree.plain text identity).Traceable := by
  intro traceable
  rcases traceable with ⟨_, _, member⟩ | ⟨_, member⟩ | ⟨_, _, member, notRoot⟩
  · cases List.mem_singleton.mp member
  · cases List.mem_singleton.mp member
  · exact notRoot (List.mem_singleton.mp member).symm

theorem traceable_iff_of_composed {tree : SourceTree} (composed : tree.isComposed = true) :
    tree.Traceable ↔ tellsOrigin tree.leaves = true := by
  rw [tellsOrigin, List.any_eq_true]
  constructor
  · intro traceable
    rcases traceable with ⟨_, _, member⟩ | ⟨_, member⟩ | ⟨_, _, member, _⟩
    · exact ⟨_, member, rfl⟩
    · exact ⟨_, member, rfl⟩
    · exact ⟨_, member, rfl⟩
  · intro tells
    obtain ⟨leaf, member, told⟩ := tells
    cases leaf with
    | plain text identity =>
        cases identity with
        | none => cases told
        | some identity =>
            refine Or.inr (Or.inr ⟨text, identity, member, ?_⟩)
            intro isRoot
            rw [isRoot] at composed
            cases composed
    | authored text identity => exact Or.inl ⟨text, identity, member⟩
    | mapped mapped => exact Or.inr (Or.inl ⟨mapped, member⟩)
    | joined children => cases isComposed_of_mem_leaves member
    | edited child edits => cases isComposed_of_mem_leaves member

/-! ### What is woven of them -/

mutual

theorem isTracked_of_meaning {tree : SourceTree} {woven : TracedText}
    (isWoven : meaning true tree = .ok woven) :
    woven.provenance.isTracked = tellsOrigin tree.leaves := by
  cases tree with
  | plain text identity =>
      rw [meaning] at isWoven
      cases isWoven
      cases identity <;> rfl
  | authored text identity =>
      obtain ⟨mapping, _, rfl⟩ := exists_mapping_of_authored isWoven
      rfl
  | mapped leaf =>
      obtain ⟨mapping, _, rfl⟩ := exists_mapping_of_mapped isWoven
      rfl
  | joined children =>
      rw [meaning] at isWoven
      obtain ⟨results, areWoven, isWoven⟩ := exists_of_bind_eq_ok isWoven
      have joined := TracedText.joinOf_of_weaveJoined isWoven
      rw [TracedText.map_seen_true] at joined
      rw [joined.composed.isTracked, leaves]
      exact any_isTracked_of_meanings areWoven
  | edited child edits =>
      rw [meaning] at isWoven
      obtain ⟨result, isResult, isWoven⟩ := exists_of_bind_eq_ok isWoven
      rw [(editOf_of_weaveEdited isWoven).composed.isTracked, leaves]
      exact isTracked_of_meaning isResult

theorem any_isTracked_of_meanings {trees : List SourceTree} {results : List TracedText}
    (areWoven : meanings true trees = .ok results) :
    (results.any fun traced => traced.provenance.isTracked) = tellsOrigin (leavesAll trees) := by
  cases trees with
  | nil =>
      cases areWoven
      rfl
  | cons tree rest =>
      rw [meanings] at areWoven
      obtain ⟨first, isFirst, areWoven⟩ := exists_of_bind_eq_ok areWoven
      obtain ⟨others, areOthers, areWoven⟩ := exists_of_bind_eq_ok areWoven
      cases areWoven
      rw [List.any_cons, isTracked_of_meaning isFirst, any_isTracked_of_meanings areOthers,
        leavesAll, tellsOrigin_append]

end

theorem isSome_mapping?_iff_of_leaf {leaf : SourceTree} {woven : TracedText}
    (alone : leaf.isComposed = false) (isWoven : meaning true leaf = .ok woven) :
    woven.provenance.mapping?.isSome = true ↔ leaf.Traceable := by
  cases leaf with
  | plain text identity =>
      rw [meaning] at isWoven
      cases isWoven
      refine iff_of_false ?_ (not_traceable_plain text identity)
      cases identity <;> exact Bool.false_ne_true
  | authored text identity =>
      obtain ⟨mapping, _, rfl⟩ := exists_mapping_of_authored isWoven
      exact iff_of_true rfl (Or.inl ⟨text, identity, List.mem_singleton_self _⟩)
  | mapped mapped =>
      obtain ⟨mapping, _, rfl⟩ := exists_mapping_of_mapped isWoven
      exact iff_of_true rfl (Or.inr (Or.inl ⟨mapped, List.mem_singleton_self _⟩))
  | joined children => cases alone
  | edited child edits => cases alone

/-- A tree is woven to a mapping exactly if something in it can be traced. Options change nothing
of that, and neither do plain texts that are made one as a node is built. -/
theorem weave_mapped_iff {tree : SourceTree} {woven : TracedText}
    (isWoven : tree.weave true = .ok woven) :
    (woven.provenance.mapping?.isSome = true ↔ tree.Traceable) ∧
      (∀ options, ∃ rendered, tree.rendering options = .ok rendered ∧
        (rendered.mapping.isSome = true ↔ tree.Traceable)) ∧
      ∀ children, tree = join children →
        (tree.Traceable ↔ ∃ child ∈ children, ∃ leaf ∈ child.leaves, leaf.isAnonymous = false) := by
  have present : woven.provenance.mapping?.isSome = true ↔ tree.Traceable := by
    rw [weave_eq_meaning] at isWoven
    cases kind : tree.isComposed with
    | true =>
        have canonical := (canonical_of_meaning kind isWoven).1
        rw [canonical.isSome_mapping?, isTracked_of_meaning isWoven,
          traceable_iff_of_composed kind]
    | false => exact isSome_mapping?_iff_of_leaf kind isWoven
  refine ⟨present, ?_, ?_⟩
  · intro options
    rw [rendering, isWoven, ok_bind]
    cases found : woven.provenance.mapping? with
    | none =>
        rw [found] at present
        exact ⟨_, rfl, present⟩
    | some mapping =>
        obtain ⟨shown, isShown⟩ := exists_underOptions options mapping
        rw [found] at present
        rw [Option.mapM_some, isShown]
        exact ⟨_, rfl, present⟩
  · intro children isJoin
    subst isJoin
    rw [traceable_iff_of_composed rfl, tellsOrigin_join, tellsOrigin_leavesAll_iff]

theorem weave_mapped_iff_nothing_left :
    let deleted : SourceTree :=
      .edited (.joined [.authored "ab" "f"])
        { edits := [⟨0, 2, ""⟩]
          forward := by decide
          disjoint := List.pairwise_singleton _ _ }
    let empty : SourceTree := .plain "" (some "g")
    let unknown : SourceTree := join [.plain "a" none, .joined [], .plain "b" none]
    (∃ woven, deleted.weave true = .ok woven ∧ woven.text = "" ∧
        woven.provenance.mapping?.isSome = true) ∧
      (∃ woven, (SourceTree.joined [empty]).weave true = .ok woven ∧
        woven.provenance.mapping?.isSome = true) ∧
      (∃ woven, empty.weave true = .ok woven ∧ ¬ woven.provenance.mapping?.isSome = true) ∧
      ∃ woven, unknown.weave true = .ok woven ∧ woven.text = "ab" ∧
        ¬ woven.provenance.mapping?.isSome = true := by
  intro deleted empty unknown
  have deletedText : (deleted.weave true).toOption.map TracedText.text = some "" := by
    decide +kernel
  have joinedText : ((SourceTree.joined [empty]).weave true).toOption.map TracedText.text =
      some "" := by decide +kernel
  have emptyText : (empty.weave true).toOption.map TracedText.text = some "" := by decide +kernel
  have unknownText : (unknown.weave true).toOption.map TracedText.text = some "ab" := by
    decide +kernel
  obtain ⟨first, isFirst, firstText⟩ := exists_of_map_toOption deletedText
  obtain ⟨second, isSecond, _⟩ := exists_of_map_toOption joinedText
  obtain ⟨third, isThird, _⟩ := exists_of_map_toOption emptyText
  obtain ⟨fourth, isFourth, fourthText⟩ := exists_of_map_toOption unknownText
  refine ⟨⟨first, isFirst, firstText, ?_⟩, ⟨second, isSecond, ?_⟩, ⟨third, isThird, ?_⟩,
    fourth, isFourth, fourthText, ?_⟩
  · rw [(weave_mapped_iff isFirst).1]
    exact Or.inl ⟨"ab", "f", List.mem_singleton_self _⟩
  · rw [(weave_mapped_iff isSecond).1]
    refine Or.inr (Or.inr ⟨"", "g", List.mem_singleton_self _, ?_⟩)
    intro isRoot
    cases isRoot
  · rw [(weave_mapped_iff isThird).1]
    exact not_traceable_plain "" (some "g")
  · obtain ⟨present, _, ofChildren⟩ := weave_mapped_iff isFourth
    rw [present, ofChildren _ rfl]
    decide

end SourceTree

end SourceWeave
