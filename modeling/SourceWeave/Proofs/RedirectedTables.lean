import SourceWeave.Proofs.Pruning
import SourceWeave.Proofs.Reading
import SourceWeave.Proofs.Redirection

/-!
The tables of a mapping that was traced further: the outer sources as they are left, then the
inner sources that segments reach, and of names those that segments spell. Nothing is listed
for a segment that pruning drops, since only markers are dropped.
-/

set_option autoImplicit false

namespace SourceWeave

namespace Segment

variable {α : Type} (select : Location → Option α)

theorem filterMap_pruneFrom (stop : Position) (covered : Option Nat) (segments : List Segment) :
    ((pruneFrom stop covered segments).filterMap fun segment => segment.origin.bind select) =
      segments.filterMap fun segment => segment.origin.bind select := by
  have silent {segment : Segment} (marker : ¬ (!segment.isMarker) = true) :
      segment.origin.bind select = none := by
    rw [Bool.not_eq_true', Bool.not_eq_false, isMarker, Option.isNone_iff_eq_none] at marker
    rw [marker, Option.bind_none]
  fun_induction pruneFrom stop covered segments with
  | case1 => rfl
  | case2 covered segment rest line _traced ih =>
      rw [filterMap_cons_eq, filterMap_cons_eq, ih]
  | case3 covered segment rest line marker _uncovered ih =>
      rw [ih, filterMap_cons_eq, silent marker, Option.toList_none, List.nil_append]
  | case4 covered segment rest line marker _covered _before ih =>
      rw [filterMap_cons_eq, filterMap_cons_eq, ih]
  | case5 covered segment rest line marker _covered _past ih =>
      rw [ih, filterMap_cons_eq, silent marker, Option.toList_none, List.nil_append]

theorem filterMap_prune (stop : Position) (segments : List Segment) :
    ((prune stop segments).filterMap fun segment => segment.origin.bind select) =
      segments.filterMap fun segment => segment.origin.bind select :=
  filterMap_pruneFrom select stop none segments

end Segment

namespace Location.Tells

variable {sources : Array SourceRecord} {names : Array String} {location : Location}
  {account : Mapping.Account}

theorem name_eq (tells : location.Tells sources names account) :
    location.name.bind (names[·]?) = account.name := by
  rw [bind_eq_of_rel tells.named fun _ _ found => found, Option.bind_fun_some]

theorem within (tells : location.Tells sources names account) :
    location.source < sources.size ∧ ∀ name, location.name = some name → name < names.size := by
  obtain ⟨entry, isEntry, _⟩ := Option.map_eq_some_iff.mp tells.identity
  refine ⟨(Array.getElem?_eq_some_iff.mp isEntry).1, ?_⟩
  intro name isName
  have named := tells.named
  rw [isName] at named
  generalize account.name = spelled at named
  cases named with
  | some found => exact (Array.getElem?_eq_some_iff.mp found).1

end Location.Tells

section Told

variable {sources : Array SourceRecord} {names : Array String}
  {accountOf : Location → Option Mapping.Account} {segments sent : List Segment}
  (told : List.Forall₂ (fun segment sent => sent.position = segment.position ∧
    Option.Rel (Location.Tells sources names) sent.origin (segment.origin.bind accountOf))
    segments sent)

include told

theorem filterMap_told {α : Type} {ofLocation : Location → Option α}
    {ofAccount : Mapping.Account → Option α}
    (agrees : ∀ location account, Location.Tells sources names location account →
      ofLocation location = ofAccount account) :
    (sent.filterMap fun sent => sent.origin.bind ofLocation) =
      segments.filterMap fun segment => (segment.origin.bind accountOf).bind ofAccount := by
  induction told with
  | nil => rfl
  | cons first _ ih =>
      rw [filterMap_cons_eq, filterMap_cons_eq, ih]
      rw [bind_eq_of_rel first.2 agrees]

theorem inTables_of_told : Segment.InTables sources.size names.size sent := by
  induction told with
  | nil =>
      intro segment impossible
      cases impossible
  | cons first _ ih =>
      intro segment member location isLocation
      rcases List.mem_cons.mp member with isFirst | inRest
      · have related := first.2
        rw [← isFirst, isLocation] at related
        generalize Option.bind _ accountOf = account at related
        cases related with
        | some tells => exact tells.within
      · exact ih segment inRest location isLocation

end Told

/-! ### What is listed -/

namespace Intermediate

/-- The outer sources as they are left: the intermediate text has its content, or is gone if
it is removed. -/
def outerSources (intermediate : Intermediate) (outer : Mapping) (target : Nat) :
    List SourceRecord :=
  if intermediate.removed then outer.sources.toList.eraseIdx target
  else outer.sources.toList.set target ⟨some intermediate.identity, some intermediate.text⟩

section Replacing

variable {α : Type} (items : List α) (target : Nat) (replacement : Option α)

private theorem mapIdx_eq_set :
    (items.mapIdx fun index item => if index ≠ target then some item else replacement) =
      (items.map some).set target replacement := by
  rw [List.mapIdx_eq_iff]
  intro index
  rw [List.getElem?_set, List.length_map, List.getElem?_map]
  by_cases isTarget : target = index
  · rw [if_pos isTarget, isTarget]
    by_cases within : index < items.length
    · simp [within]
    · simp [within]
  · simp only [if_neg isTarget, if_pos (Ne.symm isTarget)]

private theorem reduceOption_set :
    ((items.map some).set target replacement).reduceOption =
      match replacement with
      | none => items.eraseIdx target
      | some other => items.set target other := by
  induction items generalizing target with
  | nil => cases replacement <;> rfl
  | cons item rest ih =>
      cases target with
      | zero => cases replacement <;> simp [List.reduceOption]
      | succ target =>
          rw [List.map_cons, List.set_cons_succ, List.reduceOption_cons_of_some, ih]
          cases replacement <;> rfl

end Replacing

theorem reduceOption_outerEntries (intermediate : Intermediate) (outer : Mapping) (target : Nat) :
    (intermediate.outerEntries outer target).reduceOption =
      intermediate.outerSources outer target := by
  rw [outerEntries, mapIdx_eq_set, reduceOption_set, outerSources]
  cases intermediate.removed <;> rfl

end Intermediate

namespace Mapping

variable {outer result : Mapping} {intermediate : Intermediate} {target : Nat} {stop : Position}
  (found : outer.sources.findIdx? (fun entry => entry.identity == some intermediate.identity) =
    some target)
  (traced : outer.through intermediate stop = .ok result)

include found traced

theorem exists_segment_of_reached {segment : Segment} {location : Location} {entry : SourceRecord}
    (member : segment ∈ outer.segments.toList) (isLocation : segment.origin = some location)
    (reached : intermediate.reached? target location = some entry) :
    ∃ kept ∈ result.segments.toList, ∃ further, kept.origin = some further ∧
      (result.sources[further.source]?).map SourceRecord.identity = some entry.identity := by
  obtain ⟨sent, pruned, _, _, told⟩ := exists_sent_of_through found traced
  obtain ⟨hit, isHit, isEntry⟩ := Option.map_eq_some_iff.mp reached
  have identities := filterMap_told told fun _ _ tells => tells.identity
  have named : entry.identity ∈ sent.filterMap fun sent => sent.origin.bind fun location =>
      (result.sources[location.source]?).map SourceRecord.identity := by
    rw [identities]
    apply List.mem_filterMap.mpr
    refine ⟨segment, member, ?_⟩
    rw [isLocation, Option.bind_some, Intermediate.account?, isHit, ← isEntry]
    rfl
  rw [← Segment.filterMap_prune _ stop, ← pruned] at named
  obtain ⟨kept, inResult, told⟩ := List.mem_filterMap.mp named
  obtain ⟨further, isFurther, told⟩ := Option.bind_eq_some_iff.mp told
  exact ⟨kept, inResult, further, isFurther, told⟩

/-- The tables list what they must, and nothing that no segment uses behind the outer sources. -/
theorem through_tables :
    result.sources.toList = SourceRecord.firsts (intermediate.outerSources outer target ++
        outer.segments.toList.filterMap fun segment =>
          segment.origin.bind (intermediate.reached? target)) ∧
      (∀ index, (SourceRecord.firsts (intermediate.outerSources outer target)).length ≤ index →
        index < result.sources.size → ∃ segment ∈ result.segments.toList, ∃ location,
          segment.origin = some location ∧ location.source = index) ∧
      result.names.toList = (result.segments.toList.filterMap fun segment =>
        segment.origin.bind fun location => location.name.bind (result.names[·]?)).eraseDups ∧
      Segment.InTables result.sources.size result.names.size result.segments.toList := by
  obtain ⟨sent, pruned, sources, names, told⟩ := exists_sent_of_through found traced
  rw [Intermediate.reduceOption_outerEntries] at sources
  refine ⟨?_, ?_, ?_, ?_⟩
  · rw [sources, SourceRegistry.settle_nil]
  · intro index behind within
    have noneHeld : (([] : List SourceRecord).map SourceRecord.identity).Nodup := List.nodup_nil
    have distinctSources := SourceRegistry.settle_nodup noneHeld
      (intermediate.outerSources outer target ++ outer.segments.toList.filterMap fun segment =>
        segment.origin.bind (intermediate.reached? target))
    rw [← sources] at distinctSources
    have isEntry := Array.getElem?_eq_getElem within
    have listed := isEntry
    rw [← Array.getElem?_toList, sources, SourceRegistry.settle_append,
      SourceRegistry.settle_nil] at listed
    have entered := mem_of_enlist_behind SourceRecord.identity behind listed
    obtain ⟨entry, inReached, settled⟩ := List.mem_map.mp entered
    obtain ⟨segment, inOuter, reached⟩ := List.mem_filterMap.mp inReached
    obtain ⟨location, isLocation, reached⟩ := Option.bind_eq_some_iff.mp reached
    obtain ⟨kept, inResult, further, isFurther, told⟩ :=
      exists_segment_of_reached found traced inOuter isLocation reached
    obtain ⟨other, isOther, same⟩ := Option.map_eq_some_iff.mp told
    refine ⟨kept, inResult, further, isFurther, ?_⟩
    apply Segment.index_eq_of_key distinctSources isOther isEntry
    rw [same, ← settled]
    rfl
  · rw [pruned, Segment.filterMap_prune, filterMap_told told fun _ _ tells => tells.name_eq, names,
      enlist_nil_eq_eraseDups]
  · rw [pruned]
    exact (inTables_of_told told).sublist (Segment.prune_sublist _ _)

end Mapping

theorem Mapping.through_tables_removed :
    let inner : Mapping :=
      { segments := #[.traced ⟨1, 0⟩ 1 1 0, ⟨⟨1, 1⟩, some ⟨2, 4, 2, some 0⟩⟩, .marker ⟨1, 3⟩]
        sources := #[⟨some "unused", none⟩, ⟨some "hello", some "name"⟩, ⟨some "other", none⟩]
        names := #["inner"]
        ordered := Segment.ordered_of_firstDisorder?_eq_none _ rfl
        numbered := by decide }
    let outer : Mapping :=
      { segments := #[⟨⟨1, 0⟩, some ⟨0, 1, 0, some 2⟩⟩, ⟨⟨1, 1⟩, some ⟨1, 1, 0, some 1⟩⟩,
          ⟨⟨1, 2⟩, some ⟨1, 1, 1, some 1⟩⟩, ⟨⟨1, 3⟩, some ⟨1, 1, 3, some 0⟩⟩,
          ⟨⟨1, 4⟩, some ⟨1, 1, 4, some 0⟩⟩, ⟨⟨1, 5⟩, some ⟨2, 2, 2, some 1⟩⟩]
        sources := #[⟨some "other", none⟩, ⟨some "mid", none⟩, ⟨some "other", none⟩]
        names := #["lost", "name", "first"]
        ordered := Segment.ordered_of_firstDisorder?_eq_none _ rfl
        numbered := by decide }
    let intermediate : Intermediate := ⟨"mid", "text", inner, true⟩
    ∃ result, outer.through intermediate ⟨1, 6⟩ = .ok result ∧
      result.sources.toList = [⟨some "other", none⟩, ⟨some "hello", some "name"⟩] ∧
      (∀ index, 1 ≤ index → index < result.sources.size →
        ∃ segment ∈ result.segments.toList, ∃ location,
          segment.origin = some location ∧ location.source = index) ∧
      result.names.toList = (result.segments.toList.filterMap fun segment =>
        segment.origin.bind fun location => location.name.bind (result.names[·]?)).eraseDups ∧
      Segment.InTables result.sources.size result.names.size result.segments.toList := by
  intro inner outer intermediate
  have found : outer.sources.findIdx? (fun entry =>
      entry.identity == some intermediate.identity) = some 1 := by decide +kernel
  have succeeds : (outer.through intermediate ⟨1, 6⟩).isOk = true := by decide +kernel
  obtain ⟨result, traced⟩ := exists_of_isOk succeeds
  obtain ⟨sources, used, names, inTables⟩ := through_tables found traced
  refine ⟨result, traced, sources.trans (by decide +kernel), ?_, names, inTables⟩
  intro index behind within
  exact used index (Nat.le_trans (by decide +kernel) behind) within

end SourceWeave
