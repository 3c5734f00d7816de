import SourceWeave.Proofs.Excerpt
import SourceWeave.Proofs.TextIndex

/-!
One step of an assembly. Copying a child enters its tables, appends a slice of its
text, and appends the segments of the slice and a marker behind them; inserting
appends text and at most a marker in front of it.
-/

set_option autoImplicit false

namespace SourceWeave

section Fits

variable {before after : SourceRegistry} {names : NameRegistry} {laterNames : NameRegistry}
  {links : Links} {provenance : Provenance}

theorem Links.Fits.grow {given : List SourceRecord} {givenNames : List String}
    (fits : links.Fits before.entries names.names provenance)
    (sourcesGrown : after.entries.toList = SourceRegistry.settle before.entries.toList given)
    (namesGrown : laterNames.names.toList = enlist id names.names.toList givenNames) :
    links.Fits after.entries laterNames.names provenance := by
  have keepSource {index : Nat} {identity : Option String}
      (known : (before.entries[index]?).map SourceRecord.identity = some identity) :
      (after.entries[index]?).map SourceRecord.identity = some identity := by
    obtain ⟨entry, found, isIdentity⟩ := Option.map_eq_some_iff.mp known
    rw [SourceRegistry.getElem?_of_settle sourcesGrown found, Option.map_some, isIdentity]
  cases fits with
  | unknown => exact .unknown
  | own known => exact .own (keepSource known)
  | mapped sourcesKnown namesKnown =>
      exact .mapped (sourcesKnown.imp fun _ _ known => keepSource known)
        (namesKnown.imp fun _ _ known => NameRegistry.getElem?_of_enlist namesGrown known)

theorem Links.Fits.isTracked_eq {sources : Array SourceRecord} {nameTable : Array String}
    (fits : links.Fits sources nameTable provenance) : links.isTracked = provenance.isTracked := by
  cases fits <;> rfl

private theorem mem_of_map_getElem? {α β : Type} {items : Array α} {key : α → β} {index : Nat}
    {wanted : β} (found : (items[index]?).map key = some wanted) :
    wanted ∈ items.toList.map key := by
  obtain ⟨item, isItem, isWanted⟩ := Option.map_eq_some_iff.mp found
  rw [← Array.getElem?_toList] at isItem
  exact List.mem_map.mpr ⟨item, List.mem_of_getElem? isItem, isWanted⟩

private theorem exists_of_mem_forall₂ {α β : Type} {related : α → β → Prop} {left : List α}
    {right : List β} (alike : List.Forall₂ related left right) {item : α} (member : item ∈ left) :
    ∃ other, related item other := by
  induction alike with
  | nil => cases member
  | cons related _ ih =>
      rcases List.mem_cons.mp member with isFirst | inRest
      · exact ⟨_, isFirst ▸ related⟩
      · exact ih inRest

theorem Links.Fits.settle_entries {child : TracedText}
    (fits : links.Fits before.entries names.names child.provenance) :
    SourceRegistry.settle before.entries.toList child.entries = before.entries.toList := by
  apply SourceRegistry.settle_of_known
  intro entry member
  unfold TracedText.entries at member
  generalize child.provenance = provenance at fits member
  cases fits with
  | unknown => cases member
  | own known =>
      rw [List.mem_singleton.mp member]
      exact mem_of_map_getElem? known
  | mapped sourcesKnown _ =>
      obtain ⟨_, known⟩ := exists_of_mem_forall₂ sourcesKnown member
      exact mem_of_map_getElem? known

theorem Links.Fits.enlist_nameEntries {child : TracedText}
    (fits : links.Fits before.entries names.names child.provenance) :
    enlist id names.names.toList child.nameEntries = names.names.toList := by
  apply enlist_of_known
  intro name member
  unfold TracedText.nameEntries at member
  generalize child.provenance = provenance at fits member
  cases fits with
  | unknown => cases member
  | own known => cases member
  | mapped _ namesKnown =>
      obtain ⟨index, known⟩ := exists_of_mem_forall₂ namesKnown member
      have found : (names.names[index]?).map id = some name := by
        rw [known]
        rfl
      exact mem_of_map_getElem? found

end Fits

namespace Assembly

structure Copied (child : TracedText) (links : Links) (index start stop : Nat)
    (before after : Assembly) : Prop where
  inOrder : start ≤ stop
  within : stop ≤ utf16Length child.text
  output : after.output =
    before.output.append (String.ofList (Utf16.between start stop child.text.toList))
  sources : after.sources.entries.toList =
    SourceRegistry.settle before.sources.entries.toList child.entries
  names : after.names.names.toList = enlist id before.names.names.toList child.nameEntries
  fits : Links.Fits after.sources.entries after.names.names links child.provenance
  linksAfter : ∀ other, after.links[other]?.join =
    if other = index then some links else before.links[other]?.join
  linksBefore : ∀ held, before.links[index]?.join = some held → held = links
  segments : after.segments.toList = before.segments.toList ++
    if start = stop then []
    else
      links.segments (Position.ofOffset child.text.toList start)
        (Position.ofOffset child.text.toList stop) before.output.endPosition ++
          [Segment.marker after.output.endPosition]

/-- The links of a state lead to the entries of the children they belong to. -/
def Linked (children : List TracedText) (assembly : Assembly) : Prop :=
  assembly.links.size = children.length ∧
    ∀ (index : Nat) (links : Links), assembly.links[index]?.join = some links →
      ∃ child : TracedText, children[index]? = some child ∧
        links.Fits assembly.sources.entries assembly.names.names child.provenance

theorem enter_eq_ok {before after : Assembly} {child : TracedText} {links : Links}
    (entered : before.enter (Strand.ofTracedText child) = .ok (links, after)) :
    ∃ sources names, after = { before with sources, names } ∧
      sources.entries.toList =
        SourceRegistry.settle before.sources.entries.toList child.entries ∧
      names.names.toList = enlist id before.names.names.toList child.nameEntries ∧
      links.Fits sources.entries names.names child.provenance := by
  have sameText : (Strand.ofTracedText child).text.text = child.text :=
    IndexedText.ofString_text child.text
  rw [enter, sameText] at entered
  cases child with
  | mk text provenance =>
      dsimp only [Strand.ofTracedText] at entered
      cases provenance with
      | unknown =>
          cases entered
          exact ⟨_, _, rfl, rfl, rfl, .unknown⟩
      | own identity =>
          obtain ⟨⟨source, sources⟩, added, entered⟩ := exists_of_bind_eq_ok entered
          cases entered
          obtain ⟨grown, known⟩ := SourceRegistry.add_eq_ok added
          exact ⟨_, _, rfl, grown, rfl, .own known⟩
      | mapped mapping =>
          obtain ⟨⟨sourceIndices, sources⟩, added, entered⟩ := exists_of_bind_eq_ok entered
          cases namesAdded : before.names.addAll mapping.names.toList with
          | mk nameIndices names =>
              simp only [namesAdded] at entered
              cases entered
              obtain ⟨grown, known⟩ := SourceRegistry.addAll_eq_ok added
              obtain ⟨namesGrown, namesKnown⟩ := NameRegistry.addAll_eq namesAdded
              exact ⟨_, _, rfl, grown, namesGrown, .mapped known namesKnown⟩

theorem link_eq_ok {children : List TracedText} {before after : Assembly} {index : Nat}
    {child : TracedText} {links : Links} (linked : before.Linked children)
    (isChild : children[index]? = some child)
    (entered : before.link index (Strand.ofTracedText child) = .ok (links, after)) :
    after.output = before.output ∧ after.segments = before.segments ∧
      after.links.size = before.links.size ∧
      after.sources.entries.toList =
        SourceRegistry.settle before.sources.entries.toList child.entries ∧
      after.names.names.toList = enlist id before.names.names.toList child.nameEntries ∧
      links.Fits after.sources.entries after.names.names child.provenance ∧
      (∀ other, after.links[other]?.join =
        if other = index then some links else before.links[other]?.join) ∧
      ∀ held, before.links[index]?.join = some held → held = links := by
  unfold link at entered
  cases found : before.links[index]?.join with
  | some held =>
      rw [found] at entered
      cases entered
      obtain ⟨owner, isOwner, fits⟩ := linked.2 index links found
      rw [isChild, Option.some.injEq] at isOwner
      rw [← isOwner] at fits
      refine ⟨rfl, rfl, rfl, fits.settle_entries.symm, fits.enlist_nameEntries.symm, fits, ?_, ?_⟩
      · intro other
        split
        · rename_i same
          rw [same, found]
        · rfl
      · intro held isHeld
        exact (Option.some.inj isHeld).symm
  | none =>
      rw [found] at entered
      obtain ⟨⟨fresh, middle⟩, first, entered⟩ := exists_of_bind_eq_ok entered
      cases entered
      obtain ⟨sources, names, isMiddle, grown, namesGrown, fits⟩ := enter_eq_ok first
      rw [isMiddle]
      have within : index < before.links.size := by
        rw [linked.1]
        exact (List.getElem?_eq_some_iff.mp isChild).1
      refine ⟨rfl, rfl, Array.size_setIfInBounds .., grown, namesGrown, fits, ?_, ?_⟩
      · intro other
        rw [Array.getElem?_setIfInBounds]
        by_cases same : index = other
        · rw [if_pos same, if_pos same.symm, if_pos within]
          rfl
        · rw [if_neg same, if_neg (Ne.symm same)]
      · intro held isHeld
        cases isHeld

theorem link_keeps {before after : Assembly} {index : Nat} {child : TracedText} {links : Links}
    (entered : before.link index (Strand.ofTracedText child) = .ok (links, after)) :
    after.output = before.output ∧ after.links.size = before.links.size := by
  unfold link at entered
  split at entered
  · cases entered
    exact ⟨rfl, rfl⟩
  · obtain ⟨⟨fresh, middle⟩, first, entered⟩ := exists_of_bind_eq_ok entered
    cases entered
    obtain ⟨_, _, isMiddle, _⟩ := enter_eq_ok first
    rw [isMiddle]
    exact ⟨rfl, Array.size_setIfInBounds ..⟩

def paste (linked : Assembly) (links : Links) (child : TracedText) (start stop : Nat)
    (text : String) : Assembly :=
  if start = stop then linked.append text []
  else
    let copied := linked.append text
      (links.segments (Position.ofOffset child.text.toList start)
        (Position.ofOffset child.text.toList stop) linked.output.endPosition)
    copied.append "" [Segment.marker copied.output.endPosition]

section Paste

variable (linked : Assembly) (links : Links) (child : TracedText) (start stop : Nat) (text : String)

theorem paste_output :
    (linked.paste links child start stop text).output = linked.output.append text := by
  rw [paste]
  split
  · rfl
  · exact IndexedText.append_empty _

theorem paste_segments :
    (linked.paste links child start stop text).segments.toList = linked.segments.toList ++
      if start = stop then []
      else
        links.segments (Position.ofOffset child.text.toList start)
            (Position.ofOffset child.text.toList stop) linked.output.endPosition ++
          [Segment.marker (linked.output.append text).endPosition] := by
  rw [paste]
  split <;> simp [append]

theorem paste_keeps :
    (linked.paste links child start stop text).sources = linked.sources ∧
      (linked.paste links child start stop text).names = linked.names ∧
        (linked.paste links child start stop text).links = linked.links := by
  rw [paste]
  split <;> exact ⟨rfl, rfl, rfl⟩

end Paste

section Copy

variable {children : List TracedText} {withMap : Bool} {before : Assembly}
  {index start stop : Nat} {child : TracedText}

theorem copy_of_missing (missing : children[index]? = none) :
    before.copy withMap (children.map Strand.ofTracedText).toArray index start stop =
      .error (.outOfRange .child index (children.length - 1)) := by
  rw [copy, List.getElem?_toArray, List.getElem?_map, missing, List.size_toArray, List.length_map]
  rfl

theorem copy_false_eq (isChild : children[index]? = some child) :
    before.copy false (children.map Strand.ofTracedText).toArray index start stop =
      (IndexedText.ofString child.text).slice start stop >>= fun text =>
        .ok (before.append text []) := by
  rw [copy, List.getElem?_toArray, List.getElem?_map, isChild]
  rfl

/-- Where a slice is there, its ends lie somewhere, so that a copy fails only with its child's
links and its slice. -/
theorem copy_true_eq (isChild : children[index]? = some child) :
    before.copy true (children.map Strand.ofTracedText).toArray index start stop =
      before.link index (Strand.ofTracedText child) >>= fun entered =>
        (IndexedText.ofString child.text).slice start stop >>= fun text =>
          .ok (entered.2.paste entered.1 child start stop text) := by
  rw [copy, List.getElem?_toArray, List.getElem?_map, isChild, Option.map_some]
  simp only [if_true]
  congr 1
  funext entered
  change (IndexedText.ofString child.text).slice start stop >>= _ = _
  cases sliced : (IndexedText.ofString child.text).slice start stop with
  | error cause => rfl
  | ok text =>
      obtain ⟨⟨inOrder, within⟩, _⟩ := IndexedText.slice_eq_ok_iff.mp sliced
      rw [ok_bind, ok_bind, paste]
      split
      · rfl
      · change ((IndexedText.ofString child.text).positionAt start >>= fun first =>
          (IndexedText.ofString child.text).positionAt stop >>= fun last => _) = _
        rw [IndexedText.positionAt_eq (Nat.le_trans inOrder within),
          IndexedText.positionAt_eq within]
        rfl

end Copy

theorem copy_eq_ok {children : List TracedText} {before after : Assembly} {index start stop : Nat}
    (linked : before.Linked children)
    (copied : before.copy true (children.map Strand.ofTracedText).toArray index start stop =
      .ok after) :
    ∃ child links, children[index]? = some child ∧
      Copied child links index start stop before after ∧ after.links.size = before.links.size := by
  cases isChild : children[index]? with
  | none =>
      rw [copy_of_missing isChild] at copied
      cases copied
  | some child =>
      rw [copy_true_eq isChild] at copied
      obtain ⟨⟨links, middle⟩, entered, copied⟩ := exists_of_bind_eq_ok copied
      obtain ⟨text, sliced, copied⟩ := exists_of_bind_eq_ok copied
      cases copied
      obtain ⟨⟨inOrder, within⟩, isText⟩ := IndexedText.slice_eq_ok_iff.mp sliced
      obtain ⟨sameOutput, sameSegments, sameSize, grown, namesGrown, fits, linksAfter,
        linksBefore⟩ := link_eq_ok linked isChild entered
      obtain ⟨keptSources, keptNames, keptLinks⟩ :=
        paste_keeps middle links child start stop text
      refine ⟨child, links, rfl, ?_, by rw [keptLinks, sameSize]⟩
      exact
        { inOrder
          within
          output := by rw [paste_output, sameOutput, isText]
          sources := by rw [keptSources, grown]
          names := by rw [keptNames, namesGrown]
          fits := by rw [keptSources, keptNames]; exact fits
          linksAfter := by rw [keptLinks]; exact linksAfter
          linksBefore
          segments := by rw [paste_segments, paste_output, sameSegments, sameOutput] }

theorem step_keeps {children : List TracedText} {withMap : Bool} {before after : Assembly}
    {piece : Piece}
    (stepped : before.step withMap (children.map Strand.ofTracedText).toArray piece = .ok after) :
    (∃ text, after.output = before.output.append text) ∧ after.links.size = before.links.size := by
  cases piece with
  | insert text marked =>
      cases stepped
      exact ⟨⟨text, rfl⟩, rfl⟩
  | copy index start stop =>
      rw [step] at stepped
      cases isChild : children[index]? with
      | none =>
          rw [copy_of_missing isChild] at stepped
          cases stepped
      | some child =>
          cases withMap with
          | false =>
              rw [copy_false_eq isChild] at stepped
              obtain ⟨text, _, stepped⟩ := exists_of_bind_eq_ok stepped
              cases stepped
              exact ⟨⟨text, rfl⟩, rfl⟩
          | true =>
              rw [copy_true_eq isChild] at stepped
              obtain ⟨⟨links, linked⟩, entered, stepped⟩ := exists_of_bind_eq_ok stepped
              obtain ⟨text, _, stepped⟩ := exists_of_bind_eq_ok stepped
              obtain ⟨sameOutput, sameSize⟩ := link_keeps entered
              cases stepped
              obtain ⟨_, _, keptLinks⟩ := paste_keeps linked links child start stop text
              refine ⟨⟨text, ?_⟩, by rw [keptLinks, sameSize]⟩
              rw [paste_output, sameOutput]

end Assembly

end SourceWeave
