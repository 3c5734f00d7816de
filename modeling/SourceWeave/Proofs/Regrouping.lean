import SourceWeave.Proofs.Joining

/-!
How joins are nested does not show. Whatever groups some trees are put into, and
whatever empty texts and empty joins stand between them, the same is woven.
-/

set_option autoImplicit false

namespace SourceWeave

/-- Trees in groups. An item may be any tree, also one that is a join itself. -/
inductive Nesting
  | item (tree : SourceTree)
  | blank
  | group (members : List Nesting)

namespace Nesting

mutual

def toTree : Nesting → SourceTree
  | .item tree => tree
  | .blank => .plain "" none
  | .group members => SourceTree.join (toTrees members)

def toTrees : List Nesting → List SourceTree
  | [] => []
  | member :: rest => toTree member :: toTrees rest

end

mutual

def items : Nesting → List SourceTree
  | .item tree => [tree]
  | .blank => []
  | .group members => itemsAll members

def itemsAll : List Nesting → List SourceTree
  | [] => []
  | member :: rest => items member ++ itemsAll rest

end

end Nesting

namespace SourceTree

open TracedText (Alike JoinOf)

/-! ### Merged children -/

variable {withMap : Bool}

theorem meanings_singleton {tree : SourceTree} {woven : TracedText}
    (isWoven : meaning withMap tree = .ok woven) : meanings withMap [tree] = .ok [woven] := by
  rw [meanings, isWoven]
  rfl

theorem alike_plain (front back : String) :
    Alike [weavePlain (front ++ back) none] [weavePlain front none, weavePlain back none] where
  text := by
    simp [TracedText.joinedText, weavePlain]
  tracked := rfl
  entries := fun _ => rfl
  names := fun _ => rfl
  reading? := by
    intro place target _ _
    rw [TracedText.joinedReading?_of_untracked rfl, TracedText.joinedReading?_of_untracked rfl]

private theorem alike_blank : Alike [weavePlain "" none] [] where
  text := rfl
  tracked := rfl
  entries := fun _ => rfl
  names := fun _ => rfl
  reading? := by
    intro place target fromTarget inText
    exact absurd inText (Position.not_lt.mpr fromTarget)

theorem addChild_eq_or (held : List SourceTree) (child : SourceTree) :
    addChild held child = held ++ [child] ∨
      ∃ lead front back, held = lead ++ [.plain front none] ∧ child = .plain back none ∧
        addChild held child = lead ++ [.plain (front ++ back) none] := by
  unfold addChild
  split
  · rename_i front back isLast
    obtain ⟨lead, last, isHeld⟩ := List.eq_nil_or_concat held |>.resolve_left (by
      intro empty
      rw [empty] at isLast
      cases isLast)
    rw [List.concat_eq_append] at isHeld
    rw [isHeld, List.getLast?_concat, Option.some.injEq] at isLast
    rw [isLast] at isHeld
    refine Or.inr ⟨lead, front, back, isHeld, rfl, ?_⟩
    rw [isHeld, List.dropLast_concat]
  · exact Or.inl rfl

private theorem alike_addChild {held rest : List SourceTree} {child : SourceTree}
    {results : List TracedText}
    (areWoven : meanings withMap (addChild held child ++ rest) = .ok results) :
    ∃ others, meanings withMap (held ++ child :: rest) = .ok others ∧ Alike results others := by
  rcases addChild_eq_or held child with behind | ⟨lead, front, back, whole, isPlain, madeOne⟩
  · rw [behind, List.append_assoc, List.singleton_append] at areWoven
    exact ⟨results, areWoven, Alike.refl results⟩
  · rw [madeOne, List.append_assoc] at areWoven
    obtain ⟨first, others, isFirst, areOthers, isResults⟩ := meanings_append_eq_ok.mp areWoven
    obtain ⟨merged, further, isMerged, areFurther, isOthers⟩ := meanings_append_eq_ok.mp areOthers
    cases isMerged
    have apart : meanings withMap [.plain front none, .plain back none] =
        .ok [weavePlain front none, weavePlain back none] := rfl
    have backAndRest := meanings_append_eq_ok.mpr ⟨_, _, apart, areFurther, rfl⟩
    refine ⟨first ++ ([weavePlain front none, weavePlain back none] ++ further), ?_, ?_⟩
    · rw [whole, isPlain, List.append_assoc]
      exact meanings_append_eq_ok.mpr ⟨_, _, isFirst, backAndRest, rfl⟩
    · rw [isResults, isOthers]
      exact (Alike.refl first).append ((alike_plain front back).append (Alike.refl further))

private theorem alike_foldl_addChild {held children : List SourceTree}
    {results : List TracedText}
    (areWoven : meanings withMap (children.foldl addChild held) = .ok results) :
    ∃ others, meanings withMap (held ++ children) = .ok others ∧ Alike results others := by
  induction children generalizing held results with
  | nil =>
      rw [List.append_nil]
      exact ⟨results, areWoven, Alike.refl results⟩
  | cons child rest ih =>
      obtain ⟨middle, areMiddle, alikeMiddle⟩ := ih areWoven
      obtain ⟨others, areOthers, alikeOthers⟩ := alike_addChild areMiddle
      exact ⟨others, areOthers, alikeMiddle.trans alikeOthers⟩

theorem joinOf_seen_of_join {children : List SourceTree} {woven : TracedText}
    (isWoven : meaning withMap (join children) = .ok woven) :
    ∃ results, meanings withMap children = .ok results ∧
      JoinOf (results.map (TracedText.seen withMap)) woven := by
  rw [join, meaning] at isWoven
  obtain ⟨merged, areMerged, joined⟩ := exists_of_bind_eq_ok isWoven
  obtain ⟨results, areWoven, alike⟩ := alike_foldl_addChild areMerged
  exact ⟨results, areWoven, (TracedText.joinOf_of_weaveJoined joined).congr (alike.seen withMap)⟩

theorem joinOf_of_join {children : List SourceTree} {woven : TracedText}
    (isWoven : meaning true (join children) = .ok woven) :
    ∃ results, meanings true children = .ok results ∧ JoinOf results woven := by
  obtain ⟨results, areWoven, joined⟩ := joinOf_seen_of_join isWoven
  rw [TracedText.map_seen_true] at joined
  exact ⟨results, areWoven, joined⟩

/-! ### Groups -/

mutual

/-- A nesting is woven to what no join can tell from its items. -/
theorem alike_toTree {nesting : Nesting} {woven : TracedText}
    (isWoven : meaning true nesting.toTree = .ok woven) :
    ∃ results, meanings true nesting.items = .ok results ∧ Alike [woven] results := by
  cases nesting with
  | item tree => exact ⟨[woven], meanings_singleton isWoven, Alike.refl _⟩
  | blank =>
      cases isWoven
      exact ⟨[], rfl, alike_blank⟩
  | group members =>
      obtain ⟨results, areWoven, joined⟩ := joinOf_of_join isWoven
      obtain ⟨others, areOthers, alike⟩ := alike_toTrees areWoven
      exact ⟨others, areOthers, joined.alike.trans alike⟩

theorem alike_toTrees {nestings : List Nesting} {results : List TracedText}
    (areWoven : meanings true (Nesting.toTrees nestings) = .ok results) :
    ∃ others, meanings true (Nesting.itemsAll nestings) = .ok others ∧ Alike results others := by
  cases nestings with
  | nil =>
      cases areWoven
      exact ⟨[], rfl, Alike.refl _⟩
  | cons nesting rest =>
      rw [Nesting.toTrees, meanings] at areWoven
      obtain ⟨first, isFirst, areWoven⟩ := exists_of_bind_eq_ok areWoven
      obtain ⟨further, areFurther, areWoven⟩ := exists_of_bind_eq_ok areWoven
      cases areWoven
      obtain ⟨firstItems, areFirstItems, firstAlike⟩ := alike_toTree isFirst
      obtain ⟨furtherItems, areFurtherItems, furtherAlike⟩ := alike_toTrees areFurther
      refine ⟨firstItems ++ furtherItems, ?_, firstAlike.append furtherAlike⟩
      exact meanings_append_eq_ok.mpr ⟨_, _, areFirstItems, areFurtherItems, rfl⟩

end

/-- However the same items are grouped, the same text and the same mapping are woven. -/
theorem weave_group_eq {left right : List Nesting} {leftWoven rightWoven : TracedText}
    (sameItems : (Nesting.group left).items = (Nesting.group right).items)
    (leftIsWoven : (Nesting.group left).toTree.weave true = .ok leftWoven)
    (rightIsWoven : (Nesting.group right).toTree.weave true = .ok rightWoven) :
    leftWoven = rightWoven := by
  have joinedItems {members : List Nesting} {woven : TracedText}
      (isWoven : (Nesting.group members).toTree.weave true = .ok woven) :
      ∃ results, meanings true (Nesting.group members).items = .ok results ∧
        JoinOf results woven := by
    rw [weave_eq_meaning] at isWoven
    obtain ⟨results, areWoven, joined⟩ := joinOf_of_join isWoven
    obtain ⟨others, areOthers, alike⟩ := alike_toTrees areWoven
    exact ⟨others, areOthers, joined.congr alike⟩
  obtain ⟨leftItems, areLeft, leftJoined⟩ := joinedItems leftIsWoven
  obtain ⟨rightItems, areRight, rightJoined⟩ := joinedItems rightIsWoven
  rw [← sameItems, areLeft] at areRight
  cases areRight
  exact leftJoined.unique rightJoined

theorem weave_group_eq_nested :
    let file : Nesting := .item (.authored "a\n" "f")
    let plain : Nesting := .item (.plain "b" none)
    let named : Nesting := .item (.plain "c\nd" (some "g"))
    let last : Nesting := .item (.plain "e" none)
    let left : List Nesting := [file, .group [plain, .blank, named], last]
    let right : List Nesting := [.group [file, plain], .group [], .group [.group [named], last]]
    ∃ woven, (Nesting.group left).toTree.weave true = .ok woven ∧
      (Nesting.group right).toTree.weave true = .ok woven := by
  intro file plain named last left right
  have leftSucceeds : ((Nesting.group left).toTree.weave true).isOk = true := by decide +kernel
  have rightSucceeds : ((Nesting.group right).toTree.weave true).isOk = true := by decide +kernel
  obtain ⟨leftWoven, leftIsWoven⟩ := exists_of_isOk leftSucceeds
  obtain ⟨rightWoven, rightIsWoven⟩ := exists_of_isOk rightSucceeds
  have sameItems : (Nesting.group left).items = (Nesting.group right).items := rfl
  rw [leftIsWoven, rightIsWoven, weave_group_eq sameItems leftIsWoven rightIsWoven]
  exact ⟨rightWoven, rfl, rfl⟩

end SourceTree

end SourceWeave
