import SourceWeave.Proofs.RedirectedTables
import SourceWeave.SourceTree.Leaf

/-!
Removing the intermediate text. Of the outer sources only the first that has the text's
identity is taken for the text. Where a map lists the identity again, those entries and the
segments into them stay.
-/

set_option autoImplicit false

namespace SourceWeave

namespace Mapping

def identityAt (mapping : Mapping) (index : Nat) : Option (Option String) :=
  (mapping.sources[index]?).map SourceRecord.identity

/-- The source of this index has the identity, and so has an earlier one. -/
def Repeats (mapping : Mapping) (identity : String) (index : Nat) : Prop :=
  mapping.identityAt index = some (some identity) ∧
    ∃ earlier, earlier < index ∧ mapping.identityAt earlier = some (some identity)

variable {outer : Mapping} {identity : String} {target index : Nat}

theorem identityAt_ne_of_findIdx?
    (missing : outer.sources.findIdx? (fun entry => entry.identity == some identity) = none)
    (index : Nat) : outer.identityAt index ≠ some (some identity) := by
  intro isAt
  obtain ⟨entry, found, same⟩ := Option.map_eq_some_iff.mp isAt
  have different := Array.findIdx?_eq_none_iff.mp missing entry (Array.mem_of_getElem? found)
  rw [same, beq_self_eq_true] at different
  cases different

theorem repeats_iff
    (found : outer.sources.findIdx? (fun entry => entry.identity == some identity) = some target) :
    outer.Repeats identity index ↔
      index ≠ target ∧ outer.identityAt index = some (some identity) := by
  obtain ⟨within, isFirst, notEarlier⟩ := Array.findIdx?_eq_some_iff_getElem.mp found
  have atTarget : outer.identityAt target = some (some identity) := by
    rw [identityAt, Array.getElem?_eq_getElem within, Option.map_some, eq_of_beq isFirst]
  have behind {other : Nat} (isAt : outer.identityAt other = some (some identity)) :
      target ≤ other := by
    obtain ⟨entry, isEntry, same⟩ := Option.map_eq_some_iff.mp isAt
    apply Nat.le_of_not_lt
    intro before
    have different := notEarlier other before
    obtain ⟨_, isEntry⟩ := Array.getElem?_eq_some_iff.mp isEntry
    rw [isEntry, same, beq_self_eq_true] at different
    exact different rfl
  constructor
  · intro repeats
    obtain ⟨isAt, earlier, before, alsoAt⟩ := repeats
    have first := behind alsoAt
    exact ⟨by omega, isAt⟩
  · intro other
    obtain ⟨different, isAt⟩ := other
    have first := behind isAt
    exact ⟨isAt, target, by omega, atTarget⟩

theorem mem_identities_iff (mapping : Mapping) (identity : Option String) :
    identity ∈ mapping.sources.toList.map SourceRecord.identity ↔
      ∃ index, mapping.identityAt index = some identity := by
  rw [List.mem_iff_getElem?]
  apply exists_congr
  intro index
  rw [List.getElem?_map, Array.getElem?_toList, identityAt]

end Mapping

namespace Intermediate

variable {intermediate : Intermediate} {outer : Mapping} {target : Nat}
  (found : outer.sources.findIdx? (fun entry => entry.identity == some intermediate.identity) =
    some target)
  (removed : intermediate.removed = true)
  (unlisted : ∀ index, intermediate.mapping.identityAt index ≠ some (some intermediate.identity))

include unlisted in
theorem reached?_ne {location : Location} {entry : SourceRecord}
    (reached : intermediate.reached? target location = some entry) :
    entry.identity ≠ some intermediate.identity := by
  intro same
  obtain ⟨hit, isHit, isEntry⟩ := Option.map_eq_some_iff.mp reached
  obtain ⟨segment, inner, other⟩ := hit
  simp only at isEntry
  apply unlisted inner.source
  rw [Mapping.identityAt, (of_hit? isHit).2, Option.map_some, isEntry, same]

include found removed

include unlisted in
theorem account?_identity_iff (location : Location) :
    (∃ account, intermediate.account? outer target location = some account ∧
        account.trace.identity = some intermediate.identity) ↔
      outer.Repeats intermediate.identity location.source := by
  rw [Mapping.repeats_iff found]
  cases hit : intermediate.hit? target location with
  | some result =>
      obtain ⟨segment, inner, entry⟩ := result
      refine iff_of_false ?_ fun other => other.1 (of_hit? hit).1
      intro told
      obtain ⟨account, isAccount, same⟩ := told
      rw [account?, hit] at isAccount
      cases isAccount
      have reached : intermediate.reached? target location = some entry := by
        rw [reached?, hit]
        rfl
      exact reached?_ne unlisted reached same
  | none =>
      rw [account?, hit]
      simp only [removed, and_true]
      by_cases inTarget : location.source = target
      · rw [if_pos inTarget]
        refine iff_of_false ?_ fun other => other.1 inTarget
        intro told
        obtain ⟨_, impossible, _⟩ := told
        cases impossible
      · rw [if_neg inTarget, Mapping.account?, Mapping.identityAt, and_iff_right inTarget]
        cases outer.sources[location.source]? with
        | none => simp
        | some entry => simp

theorem mem_outerSources_iff :
    some intermediate.identity ∈
        (intermediate.outerSources outer target).map SourceRecord.identity ↔
      ∃ index, outer.Repeats intermediate.identity index := by
  rw [outerSources, if_pos removed, List.mem_map]
  constructor
  · intro listed
    obtain ⟨entry, member, same⟩ := listed
    obtain ⟨index, different, isAt⟩ := List.mem_eraseIdx_iff_getElem?.mp member
    refine ⟨index, (Mapping.repeats_iff found).mpr ⟨different, ?_⟩⟩
    rw [Mapping.identityAt, ← Array.getElem?_toList, isAt, Option.map_some, same]
  · intro repeats
    obtain ⟨index, repeats⟩ := repeats
    obtain ⟨different, isAt⟩ := (Mapping.repeats_iff found).mp repeats
    obtain ⟨entry, isEntry, same⟩ := Option.map_eq_some_iff.mp isAt
    rw [← Array.getElem?_toList] at isEntry
    exact ⟨entry, List.mem_eraseIdx_iff_getElem?.mpr ⟨index, different, isEntry⟩, same⟩

end Intermediate

namespace Mapping

variable {outer result : Mapping} {intermediate : Intermediate} {stop : Position}

/-- A segment of the mapping comes from a source of the identity. -/
def TracesTo (mapping : Mapping) (identity : String) : Prop :=
  ∃ segment ∈ mapping.segments.toList, ∃ location, segment.origin = some location ∧
    mapping.identityAt location.source = some (some identity)

variable (removed : intermediate.removed = true)
  (unlisted : ∀ index, intermediate.mapping.identityAt index ≠ some (some intermediate.identity))
  (traced : outer.through intermediate stop = .ok result)

include removed unlisted traced

theorem listed_after_removal :
    (∃ index, result.identityAt index = some (some intermediate.identity)) ↔
      ∃ index, outer.Repeats intermediate.identity index := by
  cases found : outer.sources.findIdx? fun entry =>
      entry.identity == some intermediate.identity with
  | none =>
      rw [through, found] at traced
      cases traced
      refine iff_of_false ?_ ?_
      · intro listed
        obtain ⟨index, isAt⟩ := listed
        exact identityAt_ne_of_findIdx? found index isAt
      · intro repeats
        obtain ⟨index, isAt, _⟩ := repeats
        exact identityAt_ne_of_findIdx? found index isAt
  | some target =>
      obtain ⟨_, _, sources, _, _⟩ := exists_sent_of_through found traced
      rw [← mem_identities_iff, sources, Intermediate.reduceOption_outerEntries,
        ← Intermediate.mem_outerSources_iff found removed, SourceRegistry.settle, mem_keys_enlist,
        List.map_map, List.map_append, List.mem_append]
      constructor
      · intro listed
        rcases listed with impossible | inOuter | reached
        · cases impossible
        · exact inOuter
        · obtain ⟨entry, member, same⟩ := List.mem_map.mp reached
          obtain ⟨segment, _, reached⟩ := List.mem_filterMap.mp member
          obtain ⟨location, _, reached⟩ := Option.bind_eq_some_iff.mp reached
          exact (Intermediate.reached?_ne unlisted reached same).elim
      · exact fun inOuter => Or.inr (Or.inl inOuter)

theorem traced_after_removal :
    result.TracesTo intermediate.identity ↔
      ∃ segment ∈ outer.segments.toList, ∃ location, segment.origin = some location ∧
        outer.Repeats intermediate.identity location.source := by
  cases found : outer.sources.findIdx? fun entry =>
      entry.identity == some intermediate.identity with
  | none =>
      rw [through, found] at traced
      cases traced
      refine iff_of_false ?_ ?_
      · intro tracesTo
        obtain ⟨segment, _, location, _, isAt⟩ := tracesTo
        exact identityAt_ne_of_findIdx? found _ isAt
      · intro repeats
        obtain ⟨segment, _, location, _, isAt, _⟩ := repeats
        exact identityAt_ne_of_findIdx? found _ isAt
  | some target =>
      obtain ⟨_, pruned, _, _, told⟩ := exists_sent_of_through found traced
      have identities := filterMap_told told fun _ _ tells => tells.identity
      rw [← Segment.filterMap_prune _ stop, ← pruned] at identities
      have alike := congrArg (some intermediate.identity ∈ ·) identities
      simp only [List.mem_filterMap, Option.bind_eq_some_iff, Option.some.injEq] at alike
      refine (Iff.of_eq alike).trans (exists_congr fun segment => and_congr_right fun _ => ?_)
      constructor
      · intro told
        obtain ⟨account, ⟨location, isLocation, isAccount⟩, same⟩ := told
        exact ⟨location, isLocation, (Intermediate.account?_identity_iff found removed unlisted
          location).mp ⟨account, isAccount, same⟩⟩
      · intro repeats
        obtain ⟨location, isLocation, repeats⟩ := repeats
        obtain ⟨account, isAccount, same⟩ := (Intermediate.account?_identity_iff found removed
          unlisted location).mpr repeats
        exact ⟨account, ⟨location, isLocation, isAccount⟩, same⟩

end Mapping

namespace MappedText

variable {leaf : MappedText} {inner : InnerText} {innerMap : WireMap}
  {outer further mapping : Mapping}

theorem mapping_eq_through (isInner : leaf.inner = some inner) (isMap : inner.map = some innerMap)
    (isOuter : leaf.map.describing leaf.text = .ok outer)
    (isFurther : innerMap.describing inner.text = .ok further) :
    leaf.mapping = outer.through ⟨leaf.identity, inner.text, further, inner.removed⟩
      (IndexedText.ofString leaf.text).endPosition := by
  rw [MappedText.mapping, isOuter, ok_bind, isInner]
  simp only [isMap]
  rw [isFurther, ok_bind]

/-- A removed text is gone, from the table and from the segments, except for what repeats its
identity in the outer map. -/
theorem removed_unless_repeated (isInner : leaf.inner = some inner)
    (isMap : inner.map = some innerMap) (removed : inner.removed = true)
    (isOuter : leaf.map.describing leaf.text = .ok outer)
    (isFurther : innerMap.describing inner.text = .ok further)
    (unlisted : ∀ index, further.identityAt index ≠ some (some leaf.identity))
    (isMapping : leaf.mapping = .ok mapping) :
    ((∃ index, mapping.identityAt index = some (some leaf.identity)) ↔
        ∃ index, outer.Repeats leaf.identity index) ∧
      (mapping.TracesTo leaf.identity ↔
        ∃ segment ∈ outer.segments.toList, ∃ location, segment.origin = some location ∧
          outer.Repeats leaf.identity location.source) := by
  rw [mapping_eq_through isInner isMap isOuter isFurther] at isMapping
  exact ⟨Mapping.listed_after_removal removed unlisted isMapping,
    Mapping.traced_after_removal removed unlisted isMapping⟩

theorem removed_unless_repeated_once :
    let innerMap : WireMap := { sources := [some "s"], mappings := "AAAA,C" }
    let inner : InnerText := { text := "xyz", map := some innerMap, removed := true }
    let leaf : MappedText :=
      { text := "abc"
        identity := "r/i"
        map :=
          { sourceRoot := some "r"
            sources := [some "other", some "i"]
            mappings := "ACAA,CAAC,CDAA" }
        inner := some inner }
    ∃ mapping, leaf.mapping = .ok mapping ∧ mapping.sources.size = 2 ∧
      (∀ index, mapping.identityAt index ≠ some (some leaf.identity)) ∧
      ¬ mapping.TracesTo leaf.identity := by
  intro innerMap inner leaf
  have outerView : (leaf.map.describing leaf.text).toOption.map (·.sources) =
      some #[⟨some "r/other", none⟩, ⟨some "r/i", none⟩] := by decide +kernel
  have innerView : (innerMap.describing inner.text).toOption.map (·.sources) =
      some #[⟨some "s", none⟩] := by decide +kernel
  have view : leaf.mapping.toOption.map (·.sources.size) = some 2 := by decide +kernel
  obtain ⟨outer, isOuter, outerSources⟩ := exists_of_map_toOption outerView
  obtain ⟨further, isFurther, innerSources⟩ := exists_of_map_toOption innerView
  obtain ⟨mapping, isMapping, size⟩ := exists_of_map_toOption view
  have unlisted (index : Nat) : further.identityAt index ≠ some (some leaf.identity) := by
    intro isAt
    have listed := (further.mem_identities_iff _).mpr ⟨index, isAt⟩
    rw [innerSources] at listed
    revert listed
    decide
  have once (index : Nat) : ¬ outer.Repeats leaf.identity index := by
    intro repeats
    obtain ⟨isAt, earlier, before, alsoAt⟩ := repeats
    rw [Mapping.identityAt, outerSources] at isAt alsoAt
    match index, earlier with
    | 1, 0 =>
        revert alsoAt
        decide
    | 0, _ => omega
    | 1, _ + 1 => omega
    | _ + 2, _ => cases isAt
  obtain ⟨listed, traced⟩ :=
    removed_unless_repeated rfl rfl rfl isOuter isFurther unlisted isMapping
  refine ⟨mapping, isMapping, size, ?_, ?_⟩
  · intro index isAt
    obtain ⟨repeated, repeats⟩ := listed.mp ⟨index, isAt⟩
    exact once repeated repeats
  · intro tracesTo
    obtain ⟨_, _, location, _, repeats⟩ := traced.mp tracesTo
    exact once location.source repeats

/-- The map lists the identity twice and has a segment into the second entry, which stays. -/
theorem removed_but_repeated :
    let innerMap : WireMap := { mappings := "" }
    let leaf : MappedText :=
      { text := "ab"
        identity := "i"
        map := { sources := [some "i", some "i"], mappings := "AAAA,CCAC" }
        inner := some { text := "xy", map := some innerMap, removed := true } }
    ∃ further mapping, innerMap.describing "xy" = .ok further ∧ leaf.mapping = .ok mapping ∧
      (∀ index, further.identityAt index ≠ some (some leaf.identity)) ∧
      mapping.identityAt 0 = some (some leaf.identity) ∧ mapping.TracesTo leaf.identity := by
  intro innerMap leaf
  have innerView : (innerMap.describing "xy").toOption.map (·.sources) = some #[] := by
    decide +kernel
  have view : leaf.mapping.toOption.map (fun mapping =>
      (mapping.sources, mapping.segments.toList)) =
      some (#[⟨some "i", none⟩], [.traced ⟨1, 1⟩ 0 1 1]) := by decide +kernel
  obtain ⟨further, isFurther, innerSources⟩ := exists_of_map_toOption innerView
  obtain ⟨mapping, isMapping, tables⟩ := exists_of_map_toOption view
  obtain ⟨sources, segments⟩ := Prod.mk.inj tables
  have isAt : mapping.identityAt 0 = some (some leaf.identity) := by
    rw [Mapping.identityAt, sources]
    rfl
  refine ⟨further, mapping, isFurther, isMapping, ?_, isAt, .traced ⟨1, 1⟩ 0 1 1, ?_, _, rfl, isAt⟩
  · intro index impossible
    rw [Mapping.identityAt, innerSources] at impossible
    cases impossible
  · rw [segments]
    exact List.mem_cons_self

end MappedText

end SourceWeave
