import SourceWeave.Proofs.Agreement
import SourceWeave.Proofs.Regrouping

/-!
Whether a join can be woven. Whatever is joined, its tables are entered one after the other, and
nothing else can fail. How the same items are grouped decides what is entered at once, and makes a
difference only if a source of unknown content hides that others differ.
-/

set_option autoImplicit false

namespace SourceWeave

open SourceRegistry (Settled Agree Decided Represents)

namespace Assembly

variable {children : List TracedText} {before after : Assembly}

theorem map_sources_copy (coherent : Coherent children before) {index : Nat} {child : TracedText}
    (isChild : children[index]? = some child) (unlinked : before.links[index]?.join = none) :
    (before.copy true (children.map Strand.ofTracedText).toArray index 0
        (utf16Length child.text)).map Assembly.sources =
      before.sources.receive child.entries := by
  apply map_eq_of_failure?
  · rw [failure?_copy isChild (Nat.zero_le _) (Nat.le_refl _), failure?_link, unlinked,
      SourceRegistry.failure?_receive]
    rfl
  · intro copied table isCopied isTable
    obtain ⟨other, links, isOther, result, _⟩ := copy_eq_ok coherent.linked isCopied
    rw [isChild, Option.some.injEq] at isOther
    apply SourceRegistry.eq_of_entries
    rw [result.sources, ← isOther, SourceRegistry.receive_eq_ok isTable]

theorem map_sources_run (coherent : Coherent children before) (texts : List TracedText)
    (index : Nat)
    (inPlace : ∀ (count : Nat) (traced : TracedText), texts[count]? = some traced →
      children[index + count]? = some traced)
    (unlinked : ∀ other, index ≤ other → before.links[other]?.join = none) :
    (((texts.zipIdx index).map fun entry =>
        Piece.copy entry.2 0 (utf16Length entry.1.text)).foldlM
          (Assembly.step true (children.map Strand.ofTracedText).toArray) before).map
        Assembly.sources =
      before.sources.receive (texts.flatMap TracedText.entries) := by
  induction texts generalizing index before with
  | nil => rfl
  | cons traced rest ih =>
      have isChild : children[index]? = some traced := inPlace 0 traced rfl
      have copied := map_sources_copy coherent isChild (unlinked index (Nat.le_refl index))
      rw [List.zipIdx_cons, List.map_cons, List.foldlM_cons, step, List.flatMap_cons,
        SourceRegistry.receive_append, ← copied]
      cases isAfter : before.copy true (children.map Strand.ofTracedText).toArray index 0
          (utf16Length traced.text) with
      | error cause => rfl
      | ok next =>
          obtain ⟨_, links, _, result, _⟩ := copy_eq_ok coherent.linked isAfter
          have stepped : before.step true (children.map Strand.ofTracedText).toArray
              (.copy index 0 (utf16Length traced.text)) = .ok next := isAfter
          rw [ok_bind]
          refine ih (coherent.step stepped) (index + 1) ?_ ?_
          · intro count other found
            rw [Nat.add_assoc, Nat.add_comm 1]
            exact inPlace (count + 1) other found
          · intro other further
            rw [result.linksAfter, if_neg (Nat.ne_of_gt further)]
            exact unlinked other (Nat.le_of_lt further)

end Assembly

namespace SourceTree

theorem failure?_weaveJoined (texts : List TracedText) :
    failure? (weaveJoined true texts) =
      failure? (({} : SourceRegistry).receive (texts.flatMap TracedText.entries)) := by
  have inPlace (count : Nat) (traced : TracedText) (found : texts[count]? = some traced) :
      texts[0 + count]? = some traced := by
    rwa [Nat.zero_add]
  have ran := Assembly.map_sources_run (Assembly.coherent_initial texts) texts 0 inPlace
    (fun other _ => Assembly.links_initial texts.length other)
  rw [weaveJoined, failure?_assemble, joinedPieces, List.mapIdx_eq_zipIdx_map, ← ran, failure?_map]

theorem map_entries_weaveJoined (texts : List TracedText) :
    (weaveJoined true texts).map TracedText.entries =
      (({} : SourceRegistry).receive (texts.flatMap TracedText.entries)).map
        fun table => table.entries.toList := by
  apply map_eq_of_failure?
  · rw [failure?_weaveJoined, failure?_map]
  · intro woven table isWoven isTable
    have joined := TracedText.joinOf_of_weaveJoined isWoven
    rw [TracedText.map_seen_true] at joined
    cases received : ({} : SourceRegistry).receive (texts.flatMap TracedText.entries) with
    | error cause =>
        rw [received] at isTable
        cases isTable
    | ok whole =>
        rw [received] at isTable
        cases isTable
        rw [joined.composed.entries]
        exact (SourceRegistry.receive_eq_ok received).symm

/-! ### What trees bring -/

def brought (trees : List SourceTree) : Except MappingError (List SourceRecord) := do
  return (← trees.mapM (weave true)).flatMap TracedText.entries

theorem brought_eq (trees : List SourceTree) :
    brought trees = (meanings true trees).map fun texts => texts.flatMap TracedText.entries := by
  rw [brought, mapM_weave]
  cases meanings true trees <;> rfl

theorem brought_append (front back : List SourceTree) :
    brought (front ++ back) =
      brought front >>= fun first => (brought back).map fun second => first ++ second := by
  simp only [brought, List.mapM_append]
  cases front.mapM (weave true) with
  | error cause => rfl
  | ok first =>
      cases back.mapM (weave true) with
      | error cause => rfl
      | ok second =>
          change Except.ok ((first ++ second).flatMap TracedText.entries) = _
          rw [List.flatMap_append]
          rfl

theorem brought_plain (text : String) (rest : List SourceTree) :
    brought (.plain text none :: rest) = brought rest := by
  rw [brought_eq, brought_eq, meanings, meaning]
  cases meanings true rest <;> rfl

theorem brought_addChild (held rest : List SourceTree) (child : SourceTree) :
    brought (addChild held child ++ rest) = brought (held ++ child :: rest) := by
  rcases addChild_eq_or held child with behind | ⟨lead, front, back, whole, isPlain, madeOne⟩
  · rw [behind, List.append_assoc, List.singleton_append]
  · rw [madeOne, whole, isPlain, List.append_assoc, List.append_assoc, brought_append,
      brought_append lead, List.singleton_append, List.singleton_append, brought_plain,
      brought_plain, brought_plain]

theorem brought_mergeChildren (children : List SourceTree) :
    brought (mergeChildren children) = brought children := by
  have fromHeld (held : List SourceTree) :
      brought (children.foldl addChild held) = brought (held ++ children) := by
    induction children generalizing held with
    | nil => rw [List.append_nil]; rfl
    | cons child rest ih => rw [List.foldl_cons, ih, brought_addChild]
  exact fromHeld []

theorem brought_join (children : List SourceTree) :
    brought [join children] =
      brought children >>= fun entries =>
        (({} : SourceRegistry).receive entries).map fun table => table.entries.toList := by
  rw [← brought_mergeChildren children, brought_eq, brought_eq, meanings, meanings, join, meaning]
  cases meanings true (mergeChildren children) with
  | error cause => rfl
  | ok texts =>
      change _ = (({} : SourceRegistry).receive (texts.flatMap TracedText.entries)).map _
      rw [← map_entries_weaveJoined]
      change Except.map _ (weaveJoined true texts >>= fun first => Except.ok [first]) = _
      cases weaveJoined true texts with
      | error cause => rfl
      | ok woven =>
          change Except.ok ([woven].flatMap TracedText.entries) = Except.ok woven.entries
          rw [List.flatMap_singleton]

theorem brought_append_eq_ok {front back : List SourceTree} {entries : List SourceRecord} :
    brought (front ++ back) = .ok entries ↔
      ∃ first second, brought front = .ok first ∧ brought back = .ok second ∧
        entries = first ++ second := by
  rw [brought_append]
  cases brought front with
  | error cause => simp [bind, Except.bind]
  | ok first =>
      rw [ok_bind]
      cases brought back with
      | error cause => simp [Except.map]
      | ok second => simp [Except.map, eq_comm]

theorem settled_of_brought {trees : List SourceTree} {entries : List SourceRecord}
    (areBrought : brought trees = .ok entries) : Settled entries := by
  induction trees generalizing entries with
  | nil =>
      cases areBrought
      exact SourceRegistry.settled_nil
  | cons tree rest ih =>
      rw [← List.singleton_append, brought_append_eq_ok] at areBrought
      obtain ⟨first, second, isFirst, areRest, whole⟩ := areBrought
      rw [brought_eq, meanings] at isFirst
      cases isWoven : meaning true tree with
      | error cause =>
          rw [isWoven] at isFirst
          cases isFirst
      | ok woven =>
          rw [isWoven] at isFirst
          cases isFirst
          rw [whole]
          refine Settled.append ?_ (ih areRest)
          change Settled ([woven].flatMap TracedText.entries)
          rw [List.flatMap_singleton]
          exact entries_settled isWoven

/-! ### Groups -/

theorem represents_join {children : List SourceTree} {entries : List SourceRecord}
    (isBrought : brought [join children] = .ok entries) :
    ∃ given, brought children = .ok given ∧
      failure? (({} : SourceRegistry).receive given) = none ∧ Represents entries given := by
  rw [brought_join] at isBrought
  obtain ⟨given, isGiven, isBrought⟩ := exists_of_bind_eq_ok isBrought
  cases received : ({} : SourceRegistry).receive given with
  | error cause =>
      rw [received] at isBrought
      cases isBrought
  | ok table =>
      rw [received] at isBrought
      cases isBrought
      have together : failure? (({} : SourceRegistry).receive given) = none :=
        failure?_eq_none_iff.mpr ⟨table, received⟩
      refine ⟨given, isGiven, together, ?_⟩
      change Represents table.entries.toList given
      rw [SourceRegistry.receive_eq_ok received]
      exact SourceRegistry.represents_of_receive (settled_of_brought isGiven) together

mutual

theorem represents_toTree {nesting : Nesting} {entries all : List SourceRecord}
    (isBrought : brought [nesting.toTree] = .ok entries)
    (areItems : brought nesting.items = .ok all) (decided : Decided all) :
    Represents entries all := by
  cases nesting with
  | item tree =>
      rw [Nesting.toTree] at isBrought
      rw [Nesting.items, isBrought] at areItems
      cases areItems
      exact Represents.refl entries
  | blank =>
      rw [Nesting.toTree, brought_plain] at isBrought
      rw [Nesting.items, isBrought] at areItems
      cases areItems
      exact Represents.refl entries
  | group members =>
      -- That the members' tables went together shows that all items agree.
      rw [Nesting.toTree] at isBrought
      obtain ⟨given, areMembers, together, represents⟩ := represents_join isBrought
      have fromMembers := represents_toTrees areMembers areItems decided
      have settled := settled_of_brought areMembers
      exact represents.trans fromMembers (fromMembers.agree_of_receive settled decided together)

theorem represents_toTrees {nestings : List Nesting} {entries all : List SourceRecord}
    (areBrought : brought (Nesting.toTrees nestings) = .ok entries)
    (areItems : brought (Nesting.itemsAll nestings) = .ok all) (decided : Decided all) :
    Represents entries all := by
  cases nestings with
  | nil =>
      cases areBrought
      cases areItems
      exact Represents.refl []
  | cons nesting rest =>
      rw [Nesting.toTrees, ← List.singleton_append, brought_append_eq_ok] at areBrought
      rw [Nesting.itemsAll, brought_append_eq_ok] at areItems
      obtain ⟨first, further, isFirst, areFurther, isEntries⟩ := areBrought
      obtain ⟨firstItems, furtherItems, areFirst, areOthers, isAll⟩ := areItems
      rw [isAll] at decided
      rw [isEntries, isAll]
      refine (represents_toTree isFirst areFirst ?_).append
        (represents_toTrees areFurther areOthers ?_)
      · exact decided.subset (List.subset_append_left _ _)
      · exact decided.subset (List.subset_append_right _ _)

end

mutual

/-- If the items of a nesting agree, each of its groups can be woven. -/
theorem exists_brought_toTree {nesting : Nesting} {all : List SourceRecord}
    (areItems : brought nesting.items = .ok all) (agree : Agree all) :
    ∃ entries, brought [nesting.toTree] = .ok entries ∧ entries ⊆ all := by
  cases nesting with
  | item tree => exact ⟨all, areItems, List.Subset.refl all⟩
  | blank =>
      cases areItems
      exact ⟨[], brought_plain "" [], List.Subset.refl []⟩
  | group members =>
      obtain ⟨given, areMembers, within⟩ := exists_brought_toTrees areItems agree
      have settled := settled_of_brought areMembers
      have together := (agree.subset within).failure?_receive settled
      obtain ⟨table, received⟩ := failure?_eq_none_iff.mp together
      refine ⟨table.entries.toList, ?_, ?_⟩
      · rw [Nesting.toTree, brought_join, areMembers, ok_bind, received]
        rfl
      · rw [SourceRegistry.receive_eq_ok received]
        exact List.Subset.trans settled.settle_nil_subset within

theorem exists_brought_toTrees {nestings : List Nesting} {all : List SourceRecord}
    (areItems : brought (Nesting.itemsAll nestings) = .ok all) (agree : Agree all) :
    ∃ entries, brought (Nesting.toTrees nestings) = .ok entries ∧ entries ⊆ all := by
  cases nestings with
  | nil =>
      cases areItems
      exact ⟨[], rfl, List.Subset.refl []⟩
  | cons nesting rest =>
      rw [Nesting.itemsAll, brought_append_eq_ok] at areItems
      obtain ⟨firstItems, furtherItems, areFirst, areOthers, isAll⟩ := areItems
      rw [isAll] at agree ⊢
      obtain ⟨first, isFirst, firstWithin⟩ := exists_brought_toTree areFirst
        (agree.subset (List.subset_append_left _ _))
      obtain ⟨further, areFurther, furtherWithin⟩ := exists_brought_toTrees areOthers
        (agree.subset (List.subset_append_right _ _))
      refine ⟨first ++ further, ?_, ?_⟩
      · rw [Nesting.toTrees, ← List.singleton_append, brought_append_eq_ok]
        exact ⟨first, further, isFirst, areFurther, rfl⟩
      · exact List.append_subset.mpr
          ⟨fun _ member => List.mem_append_left _ (firstWithin member),
            fun _ member => List.mem_append_right _ (furtherWithin member)⟩

end

theorem exists_brought_items {nestings : List Nesting} {entries : List SourceRecord}
    (areBrought : brought (Nesting.toTrees nestings) = .ok entries) :
    ∃ all, brought (Nesting.itemsAll nestings) = .ok all := by
  rw [brought_eq] at areBrought ⊢
  cases areWoven : meanings true (Nesting.toTrees nestings) with
  | error cause =>
      rw [areWoven] at areBrought
      cases areBrought
  | ok results =>
      obtain ⟨others, areOthers, _⟩ := alike_toTrees areWoven
      rw [areOthers]
      exact ⟨_, rfl⟩

theorem exists_underOptions (options : MappingOptions) (mapping : Mapping) :
    ∃ shown, underOptions options mapping = .ok shown := by
  unfold underOptions
  split
  · exact ⟨_, rfl⟩
  · obtain ⟨built, isBuilt⟩ := mapping.exists_byLine
    rw [isBuilt]
    exact ⟨_, rfl⟩

theorem isOk_mapping_iff {tree : SourceTree} {options : MappingOptions} :
    (tree.mapping options).isOk = true ↔ ∃ entries, brought [tree] = .ok entries := by
  rw [brought_eq, meanings, mapping, rendering, weave_eq_meaning]
  cases meaning true tree with
  | error cause => simp [bind, Except.bind, Except.map, Except.isOk, Except.toBool]
  | ok woven =>
      refine iff_of_true ?_ ⟨_, rfl⟩
      cases isKnown : woven.provenance.mapping? with
      | none => rw [ok_bind, isKnown]; rfl
      | some held =>
          obtain ⟨shown, isShown⟩ := exists_underOptions options held
          rw [ok_bind, isKnown, Option.mapM_some, isShown]
          rfl

/-- Where no source of unknown content hides that others differ, a grouping has a mapping exactly
if its items can be woven and agree on their sources. -/
theorem isOk_mapping_group_iff {members : List Nesting} {options : MappingOptions}
    (decided : ∀ entries, brought (Nesting.group members).items = .ok entries → Decided entries) :
    ((Nesting.group members).toTree.mapping options).isOk = true ↔
      ∃ entries, brought (Nesting.group members).items = .ok entries ∧ Agree entries := by
  rw [isOk_mapping_iff]
  constructor
  · intro succeeds
    obtain ⟨table, isBrought⟩ := succeeds
    rw [Nesting.toTree] at isBrought
    obtain ⟨given, areMembers, together, _⟩ := represents_join isBrought
    obtain ⟨entries, areItems⟩ := exists_brought_items areMembers
    have represents := represents_toTrees areMembers areItems (decided entries areItems)
    refine ⟨entries, areItems, ?_⟩
    exact represents.agree_of_receive (settled_of_brought areMembers) (decided entries areItems)
      together
  · intro agreeing
    obtain ⟨entries, areItems, agree⟩ := agreeing
    obtain ⟨table, isBrought, _⟩ := exists_brought_toTree areItems agree
    exact ⟨table, isBrought⟩

/-- However the same items are grouped, all groupings have a mapping or none has, unless a source
of unknown content hides that others differ. -/
theorem isOk_mapping_group_eq {left right : List Nesting} (options : MappingOptions)
    (sameItems : (Nesting.group left).items = (Nesting.group right).items)
    (decided : ∀ entries, brought (Nesting.group left).items = .ok entries → Decided entries) :
    ((Nesting.group left).toTree.mapping options).isOk =
      ((Nesting.group right).toTree.mapping options).isOk := by
  rw [Bool.eq_iff_iff, isOk_mapping_group_iff decided, sameItems]
  rw [sameItems] at decided
  exact (isOk_mapping_group_iff decided).symm

theorem isOk_mapping_group_eq_shared :
    let mapped : SourceTree :=
      .mapped
        { text := "a"
          identity := "i"
          map := { sources := [some "s", none], mappings := "AAAA" } }
    let named : SourceTree := .plain "b" (some "s")
    let file : SourceTree := .authored "b" "s"
    ((join [join [mapped, named], file]).mapping {}).isOk = true ∧
      ((join [mapped, join [named, file]]).mapping {}).isOk = true := by
  intro mapped named file
  let left : List Nesting := [.group [.item mapped, .item named], .item file]
  let right : List Nesting := [.item mapped, .group [.item named, .item file]]
  have leftSucceeds : ((join [join [mapped, named], file]).mapping {}).isOk = true := by
    decide +kernel
  have decided : (brought (Nesting.group left).items).toOption.all
      (fun entries => decide (Decided entries)) = true := by decide +kernel
  have sameItems : (Nesting.group left).items = (Nesting.group right).items := rfl
  have sameOutcome := isOk_mapping_group_eq {} sameItems (by
    intro entries areItems
    rw [areItems] at decided
    exact of_decide_eq_true decided)
  exact ⟨leftSucceeds, sameOutcome.symm.trans leftSucceeds⟩

/-- A source whose content is unknown at first, and then is given twice and differently: together
with the first, the others are woven; by themselves they conflict. -/
theorem isOk_mapping_group_hidden :
    let mapped : SourceTree :=
      .mapped
        { text := "a", identity := "i", map := { sources := [some "s"], mappings := "AAAA" } }
    let second : SourceTree := .authored "b" "s"
    let third : SourceTree := .authored "c" "s"
    ((join [mapped, second, third]).mapping {}).isOk = true ∧
      ((join [join [mapped, second], third]).mapping {}).isOk = true ∧
        ((join [mapped, join [second, third]]).mapping {}).isOk = false := by
  decide +kernel

end SourceTree

end SourceWeave
