import SourceWeave.Proofs.Framing
import SourceWeave.SourceTree.Feed

/-!
What a tree is hashed as determines the tree. The feed of every node says which kind of node it
is, what it was built from and how many children follow, so that no feed of a tree begins the
feed of another one. A walk that keeps a stack of the nodes to come feeds the same.
-/

set_option autoImplicit false

namespace SourceWeave

open Feed

structure WireMap.Addressable (wire : WireMap) : Prop where
  file : ∀ text ∈ wire.file, Short text
  sourceRoot : ∀ text ∈ wire.sourceRoot, Short text
  sources : Listed (fun identity => ∀ text ∈ identity, Short text) wire.sources
  sourcesContent : ∀ contents ∈ wire.sourcesContent,
    Listed (fun content => ∀ text ∈ content, Short text) contents
  names : Listed Short wire.names
  mappings : Short wire.mappings

theorem WireMap.feed_framed : Framed WireMap.feed WireMap.Addressable := by
  have fields := word_framed.pair <| text_framed.optional.pair <| text_framed.optional.pair <|
    text_framed.optional.counted.pair <| text_framed.optional.counted.optional.pair <|
      text_framed.counted.pair text_framed
  refine (fields.comap (fun wire : WireMap =>
    (wire.version.toNat, wire.file, wire.sourceRoot, wire.sources, wire.sourcesContent,
      wire.names, wire.mappings)) ?_).mono ?_
  · intro left right same
    simp only [Prod.mk.injEq, UInt32.toNat_inj] at same
    cases left
    cases right
    simp_all
  · intro wire addressable
    exact ⟨Nat.lt_trans wire.version.toNat_lt (by decide), addressable.file,
      addressable.sourceRoot, addressable.sources, addressable.sourcesContent, addressable.names,
      addressable.mappings⟩

structure InnerText.Addressable (inner : InnerText) : Prop where
  text : Short inner.text
  map : ∀ wire ∈ inner.map, wire.Addressable

theorem InnerText.feed_framed : Framed InnerText.feed InnerText.Addressable := by
  have fields := text_framed.pair <| flag_framed.pair WireMap.feed_framed.optional
  refine (fields.comap (fun inner : InnerText =>
    (inner.text, inner.removed, inner.map)) ?_).mono ?_
  · intro left right same
    cases left
    cases right
    simp_all
  · intro inner addressable
    exact ⟨addressable.text, trivial, addressable.map⟩

structure MappedText.Addressable (leaf : MappedText) : Prop where
  text : Short leaf.text
  identity : Short leaf.identity
  map : leaf.map.Addressable
  inner : ∀ inner ∈ leaf.inner, inner.Addressable

theorem MappedText.feed_framed : Framed MappedText.feed MappedText.Addressable := by
  have fields := text_framed.pair <| text_framed.pair <| WireMap.feed_framed.pair <|
    InnerText.feed_framed.optional
  refine (fields.comap (fun leaf : MappedText =>
    (leaf.text, leaf.identity, leaf.map, leaf.inner)) ?_).mono ?_
  · intro left right same
    cases left
    cases right
    simp_all
  · intro leaf addressable
    exact ⟨addressable.text, addressable.identity, addressable.map, addressable.inner⟩

structure Edit.Addressable (edit : Edit) : Prop where
  start : edit.start < wordLimit
  stop : edit.stop < wordLimit
  replacement : Short edit.replacement

theorem Edit.feed_framed : Framed Edit.feed Edit.Addressable := by
  have fields := word_framed.pair <| word_framed.pair text_framed
  refine (fields.comap (fun edit : Edit =>
    (edit.start, edit.stop, edit.replacement)) ?_).mono ?_
  · intro left right same
    cases left
    cases right
    simp_all
  · intro edit addressable
    exact ⟨addressable.start, addressable.stop, addressable.replacement⟩

theorem EditList.eq_of_edits {left right : EditList} (same : left.edits = right.edits) :
    left = right := by
  cases left
  cases right
  simp_all

/-! ### Trees -/

namespace SourceTree

mutual

/-- Whatever the tree holds has a length, or stands at an offset, that eight bytes can hold. -/
def Addressable : SourceTree → Prop
  | .plain text identity => Short text ∧ ∀ name ∈ identity, Short name
  | .authored text identity => Short text ∧ Short identity
  | .mapped leaf => leaf.Addressable
  | .joined children => children.length < wordLimit ∧ AllAddressable children
  | .edited child edits => Listed Edit.Addressable edits.edits ∧ child.Addressable

def AllAddressable : List SourceTree → Prop
  | [] => True
  | tree :: rest => tree.Addressable ∧ AllAddressable rest

end

theorem kind_short (tree : SourceTree) : Short tree.kind := by
  cases tree
  all_goals
    simp only [kind]
    decide

mutual

theorem feedContents_append (tree : SourceTree) (rest : List UInt8) :
    tree.feedContents rest = tree.feedContents [] ++ rest := by
  cases tree with
  | plain text identity =>
      exact (text_framed.pair text_framed.optional).append (text, identity) rest
  | authored text identity => exact (text_framed.pair text_framed).append (text, identity) rest
  | mapped leaf => exact MappedText.feed_framed.append leaf rest
  | joined children =>
      rw [feedContents, feedContents, feedAll_append children rest, word_framed.append,
        word_framed.append _ (feedAll children []), List.append_assoc]
  | edited child edits =>
      rw [feedContents, feedContents, feedContents_append child rest]
      rw [Edit.feed_framed.counted.append, text_framed.append,
        Edit.feed_framed.counted.append _ (Feed.text child.kind _),
        text_framed.append _ (feedContents child []), List.append_assoc, List.append_assoc]

theorem feedAll_append (trees : List SourceTree) (rest : List UInt8) :
    feedAll trees rest = feedAll trees [] ++ rest := by
  cases trees with
  | nil => rfl
  | cons tree trees =>
      rw [feedAll, feedAll, feedContents_append, feedAll_append trees rest, text_framed.append]
      rw [text_framed.append _ (tree.feedContents (feedAll trees [])),
        feedContents_append tree (feedAll trees []), List.append_assoc, List.append_assoc]

end

mutual

theorem eq_of_feedContents {left right : SourceTree} {rest others : List UInt8}
    (leftFits : left.Addressable) (rightFits : right.Addressable)
    (sameKind : left.kind = right.kind)
    (same : left.feedContents rest = right.feedContents others) :
    left = right ∧ rest = others := by
  cases left with
  | plain text identity =>
      cases right with
      | plain otherText otherIdentity =>
          have told : (text, identity) = (otherText, otherIdentity) ∧ rest = others :=
            (text_framed.pair text_framed.optional).separates leftFits rightFits same
          obtain ⟨sameParts, sameRest⟩ := told
          cases sameParts
          exact ⟨rfl, sameRest⟩
      | _ => simp [kind] at sameKind
  | authored text identity =>
      cases right with
      | authored otherText otherIdentity =>
          have told : (text, identity) = (otherText, otherIdentity) ∧ rest = others :=
            (text_framed.pair text_framed).separates leftFits rightFits same
          obtain ⟨sameParts, sameRest⟩ := told
          cases sameParts
          exact ⟨rfl, sameRest⟩
      | _ => simp [kind] at sameKind
  | mapped leaf =>
      cases right with
      | mapped other =>
          obtain ⟨sameLeaf, sameRest⟩ := MappedText.feed_framed.separates leftFits rightFits same
          exact ⟨congrArg mapped sameLeaf, sameRest⟩
      | _ => simp [kind] at sameKind
  | joined children =>
      cases right with
      | joined others =>
          obtain ⟨sameLength, sameFurther⟩ :=
            word_framed.separates leftFits.1 rightFits.1 same
          obtain ⟨sameChildren, sameRest⟩ :=
            eq_of_feedAll leftFits.2 rightFits.2 sameLength sameFurther
          exact ⟨congrArg joined sameChildren, sameRest⟩
      | _ => simp [kind] at sameKind
  | edited child edits =>
      cases right with
      | edited other otherEdits =>
          obtain ⟨sameEdits, sameFurther⟩ :=
            Edit.feed_framed.counted.separates leftFits.1 rightFits.1 same
          obtain ⟨sameKind, sameFurther⟩ :=
            text_framed.separates child.kind_short other.kind_short sameFurther
          obtain ⟨sameChild, sameRest⟩ :=
            eq_of_feedContents leftFits.2 rightFits.2 sameKind sameFurther
          rw [sameChild, EditList.eq_of_edits sameEdits]
          exact ⟨rfl, sameRest⟩
      | _ => simp [kind] at sameKind

theorem eq_of_feedAll {lefts rights : List SourceTree} {rest others : List UInt8}
    (leftFits : AllAddressable lefts) (rightFits : AllAddressable rights)
    (sameLength : lefts.length = rights.length)
    (same : feedAll lefts rest = feedAll rights others) : lefts = rights ∧ rest = others := by
  cases lefts with
  | nil =>
      rw [List.length_eq_zero_iff.mp sameLength.symm] at same ⊢
      exact ⟨rfl, same⟩
  | cons left lefts =>
      cases rights with
      | nil => cases sameLength
      | cons right rights =>
          obtain ⟨sameKind, sameFurther⟩ :=
            text_framed.separates left.kind_short right.kind_short same
          obtain ⟨sameFirst, sameFurther⟩ :=
            eq_of_feedContents leftFits.1 rightFits.1 sameKind sameFurther
          obtain ⟨sameTail, sameRest⟩ :=
            eq_of_feedAll leftFits.2 rightFits.2 (Nat.succ.inj sameLength) sameFurther
          rw [sameFirst, sameTail]
          exact ⟨rfl, sameRest⟩

end

theorem feed_framed : Framed feed Addressable where
  append tree rest := by
    rw [feed, feed, tree.feedContents_append, text_framed.append,
      text_framed.append _ (tree.feedContents []), List.append_assoc]
  separates {left right _ _} leftFits rightFits same := by
    obtain ⟨sameKind, sameFurther⟩ :=
      text_framed.separates left.kind_short right.kind_short same
    exact eq_of_feedContents leftFits rightFits sameKind sameFurther

/-- The feed of a tree begins the feed of no other tree, and so it is fed for no other one. -/
theorem feed_isPrefix_iff {left right : SourceTree} (leftFits : left.Addressable)
    (rightFits : right.Addressable) :
    (left.feed [] <+: right.feed [] ↔ left = right) ∧
      (left.feed [] = right.feed [] ↔ left = right) := by
  have isPrefix := feed_framed.isPrefix_iff leftFits rightFits
  refine ⟨isPrefix, ?_⟩
  constructor
  · intro same
    exact isPrefix.mp (same ▸ List.prefix_rfl)
  · intro same
    rw [same]

theorem feed_isPrefix_iff_regrouped :
    let leaf : SourceTree :=
      .mapped
        { text := "a"
          identity := "i"
          map :=
            { sources := [some "s", none]
              sourcesContent := some [none, some ""]
              mappings := "AAAA" }
          inner := some { text := "", map := some { file := some "f", mappings := ";" } } }
    let plain : SourceTree :=
      .edited (.plain "b" none)
        { edits := [⟨0, 1, "c"⟩]
          forward := by decide
          disjoint := List.pairwise_singleton _ _ }
    let left : SourceTree := .joined [.joined [leaf, plain], .authored "d" "e"]
    let right : SourceTree := .joined [.joined [leaf], plain, .authored "d" "e"]
    left.Addressable ∧ right.Addressable ∧ ¬ left.feed [] <+: right.feed [] := by
  intro leaf plain left right
  have leafFits : leaf.Addressable := by
    refine ⟨by decide, by decide, ?_, ?_⟩
    · constructor
      all_goals decide
    · intro inner isInner
      cases isInner
      refine ⟨by decide, ?_⟩
      intro wire isWire
      cases isWire
      constructor
      all_goals decide
  have plainFits : plain.Addressable := by
    refine ⟨⟨by decide, ?_⟩, by decide, by decide⟩
    intro edit member
    cases List.mem_singleton.mp member
    exact ⟨by decide, by decide, by decide⟩
  have fileFits : Addressable (.authored "d" "e") := ⟨by decide, by decide⟩
  have leftFits : left.Addressable :=
    ⟨by decide, ⟨by decide, leafFits, plainFits, trivial⟩, fileFits, trivial⟩
  have rightFits : right.Addressable :=
    ⟨by decide, ⟨by decide, leafFits, trivial⟩, plainFits, fileFits, trivial⟩
  refine ⟨leftFits, rightFits, ?_⟩
  intro isPrefix
  have same := (feed_isPrefix_iff leftFits rightFits).1.mp isPrefix
  exact absurd (congrArg List.length (joined.inj same)) (by decide)

/-! ### The walk with a stack -/

def feedOwn : SourceTree → List UInt8 → List UInt8
  | .joined children, rest => Feed.word children.length rest
  | .edited _ edits, rest => Feed.counted Edit.feed edits.edits rest
  | leaf, rest => leaf.feedContents rest

def children : SourceTree → List SourceTree
  | .joined children => children
  | .edited child _ => [child]
  | _ => []

theorem sizeAll_append (front back : List SourceTree) :
    sizeAll (front ++ back) = sizeAll front + sizeAll back := by
  induction front with
  | nil => exact (Nat.zero_add _).symm
  | cons tree rest ih => rw [List.cons_append, sizeAll, sizeAll, ih, Nat.add_assoc]

theorem sizeAll_children_lt (tree : SourceTree) : sizeAll tree.children < tree.size := by
  cases tree <;> simp only [children, sizeAll, size] <;> omega

/-- Feeds the nodes of a stack. The children of a node are put in front of what was there. -/
def feedPending : List SourceTree → List UInt8
  | [] => []
  | tree :: pending =>
      Feed.text tree.kind (tree.feedOwn (feedPending (tree.children ++ pending)))
termination_by pending => sizeAll pending
decreasing_by
  rw [sizeAll_append, sizeAll]
  exact Nat.add_lt_add_right tree.sizeAll_children_lt _

theorem feedContents_eq_feedOwn (tree : SourceTree) (rest : List UInt8) :
    tree.feedContents rest = tree.feedOwn (feedAll tree.children rest) := by
  cases tree <;> rfl

theorem feedAll_of_append (front back : List SourceTree) (rest : List UInt8) :
    feedAll (front ++ back) rest = feedAll front (feedAll back rest) := by
  induction front with
  | nil => rfl
  | cons tree trees ih => rw [List.cons_append, feedAll, feedAll, ih]

/-- A stack feeds its trees from the first to the last, each with all of its nodes. -/
theorem feedPending_eq_feedAll (pending : List SourceTree) :
    feedPending pending = feedAll pending [] := by
  induction pending using feedPending.induct with
  | case1 => rw [feedPending, feedAll]
  | case2 tree pending ih =>
      rw [feedPending, ih, feedAll_of_append, ← feedContents_eq_feedOwn, feedAll]

theorem feed_eq_feedPending (tree : SourceTree) : tree.feed [] = feedPending [tree] :=
  (feedPending_eq_feedAll [tree]).symm

end SourceTree

end SourceWeave
