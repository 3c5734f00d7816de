import Mathlib.Data.List.ReduceOption
import SourceWeave.Proofs.Offsets
import SourceWeave.Proofs.Passing

/-!
Tracing through an intermediate text, told without table indices. Every outer segment is
sent on by itself: what it says afterwards depends on what it said, on the inner segment
that covers the place it points at and on the content of the source behind that.
-/

set_option autoImplicit false

namespace SourceWeave

structure Mapping.Account where
  trace : Mapping.Trace
  name : Option String
deriving DecidableEq, Repr

/-- The location says this by entries that are in the tables. -/
structure Location.Tells (sources : Array SourceRecord) (names : Array String)
    (location : Location) (account : Mapping.Account) : Prop where
  identity : (sources[location.source]?).map SourceRecord.identity = some account.trace.identity
  line : location.line = account.trace.line
  column : location.column = account.trace.column
  named : Option.Rel (fun index name => names[index]? = some name) location.name account.name

def Mapping.account? (mapping : Mapping) (location : Location) : Option Account :=
  (mapping.sources[location.source]?).map fun entry =>
    { trace := ⟨entry.identity, location.line, location.column⟩
      name := location.name.bind (mapping.names[·]?) }

namespace Intermediate

variable (intermediate : Intermediate)

/-- For a location in the intermediate text, the traced inner segment that covers it, with
the location and the source of that. -/
def hit? (target : Nat) (location : Location) : Option (Segment × Location × SourceRecord) :=
  if location.source = target then do
    let segment ←
      Segment.lastCovering ⟨location.line, location.column⟩ intermediate.mapping.segments.toList
    let found ← segment.origin
    let entry ← intermediate.mapping.sources[found.source]?
    return (segment, found, entry)
  else none

def reached? (target : Nat) (location : Location) : Option SourceRecord :=
  (intermediate.hit? target location).map fun hit => hit.2.2

/-- What a location says after it has been sent on by an inner segment. The inner name goes
first if that segment starts at the location, then the outer name if the content of the
inner source has it at the traced place. -/
def tracedBy (outer : Mapping) (location : Location) (segment : Segment) (found : Location)
    (entry : SourceRecord) : Mapping.Account :=
  let column := found.column + (location.column - segment.position.column)
  let innerName :=
    if segment.position.column = location.column then
      found.name.bind (intermediate.mapping.names[·]?)
    else none
  let outerName := location.name.bind (outer.names[·]?)
  { trace := ⟨entry.identity, found.line, column⟩
    name := innerName.or (outerName.filter fun name =>
      entry.content.any fun content => decide (Occurs name content ⟨found.line, column⟩)) }

/-- What a location of the outer mapping says in the end. Without a hit it says the same as
before, except that of a text that is removed nothing is said. -/
def account? (outer : Mapping) (target : Nat) (location : Location) : Option Mapping.Account :=
  match intermediate.hit? target location with
  | some (segment, found, entry) =>
      some (intermediate.tracedBy outer location segment found entry)
  | none =>
      if location.source = target ∧ intermediate.removed = true then none
      else outer.account? location

def passage (outer : Mapping) (target : Nat) (links : List (Option Nat)) : Passage where
  outer
  inner := intermediate.mapping
  target
  links := links.toArray
  contents := intermediate.mapping.sources.map fun entry => entry.content.map IndexedText.ofString

variable {intermediate} {outer : Mapping} {target : Nat}

theorem identity_outerEntries
    (found : outer.sources.findIdx? (fun entry => entry.identity == some intermediate.identity) =
      some target) (location : Location) :
    ((intermediate.outerEntries outer target)[location.source]?.join).map
        SourceRecord.identity =
      if location.source = target ∧ intermediate.removed = true then none
      else (outer.sources[location.source]?).map SourceRecord.identity := by
  rw [outerEntries, List.getElem?_mapIdx, Array.getElem?_toList]
  by_cases inTarget : location.source = target
  · obtain ⟨within, same, _⟩ := Array.findIdx?_eq_some_iff_getElem.mp found
    rw [inTarget, Array.getElem?_eq_getElem within]
    cases kept : intermediate.removed with
    | true => simp
    | false => simpa using (eq_of_beq same).symm
  · cases outer.sources[location.source]? with
    | none => simp
    | some entry => simp [inTarget]

end Intermediate

section Rel

variable {α β : Type} {relation weaker : α → β → Prop}

theorem rel_mono (weakens : ∀ left right, relation left right → weaker left right)
    {left : Option α} {right : Option β} (related : Option.Rel relation left right) :
    Option.Rel weaker left right := by
  cases related with
  | none => exact Option.Rel.none
  | some holds => exact Option.Rel.some (weakens _ _ holds)

theorem bind_eq_of_rel {γ : Type} {left : Option α} {right : Option β} {ofLeft : α → Option γ}
    {ofRight : β → Option γ} (related : Option.Rel relation left right)
    (agree : ∀ left right, relation left right → ofLeft left = ofRight right) :
    left.bind ofLeft = right.bind ofRight := by
  cases related with
  | none => rfl
  | some holds => exact agree _ _ holds

theorem rel_getElem?_join {lefts : List (Option α)} {rights : List (Option β)}
    (related : List.Forall₂ (Option.Rel relation) lefts rights) (index : Nat) :
    Option.Rel relation lefts[index]?.join rights[index]?.join := by
  induction related generalizing index with
  | nil => exact Option.Rel.none
  | cons first _ ih =>
      cases index with
      | zero => simpa using first
      | succ index => simpa using ih index

end Rel

theorem filterMap_cons_eq {α β : Type} (select : α → Option β) (item : α) (rest : List α) :
    (item :: rest).filterMap select = (select item).toList ++ rest.filterMap select := by
  cases chosen : select item with
  | none => rw [List.filterMap_cons_none chosen, Option.toList_none, List.nil_append]
  | some value => rw [List.filterMap_cons_some chosen, Option.toList_some, List.singleton_append]

namespace SourceRegistry

def Holds (table : SourceRegistry) (index : Nat) (entry : SourceRecord) : Prop :=
  (table.entries[index]?).map SourceRecord.identity = some entry.identity

theorem Holds.grow {before after : SourceRegistry} {given : List SourceRecord}
    (grown : after.entries.toList = settle before.entries.toList given) {index : Nat}
    {entry : SourceRecord} (holds : before.Holds index entry) : after.Holds index entry := by
  obtain ⟨held, isHeld, same⟩ := Option.map_eq_some_iff.mp holds
  rw [Holds, getElem?_of_settle grown isHeld, Option.map_some, same]

theorem addKnown_eq_ok {table after : SourceRegistry} {given : List (Option SourceRecord)}
    {indices : List (Option Nat)} (added : table.addKnown given = .ok (indices, after)) :
    after.entries.toList = settle table.entries.toList given.reduceOption ∧
      List.Forall₂ (Option.Rel after.Holds) indices given := by
  induction given generalizing table indices with
  | nil =>
      cases added
      exact ⟨rfl, List.Forall₂.nil⟩
  | cons first rest ih =>
      cases first with
      | none =>
          unfold addKnown at added
          obtain ⟨⟨others, last⟩, remaining, added⟩ := exists_of_bind_eq_ok added
          cases added
          obtain ⟨grown, known⟩ := ih remaining
          rw [List.reduceOption_cons_of_none]
          exact ⟨grown, List.Forall₂.cons Option.Rel.none known⟩
      | some entry =>
          unfold addKnown at added
          obtain ⟨⟨index, middle⟩, isFirst, added⟩ := exists_of_bind_eq_ok added
          obtain ⟨⟨others, last⟩, remaining, added⟩ := exists_of_bind_eq_ok added
          cases added
          obtain ⟨firstGrown, firstKnown⟩ := addRecord_eq_ok isFirst
          obtain ⟨restGrown, restKnown⟩ := ih remaining
          refine ⟨?_, List.Forall₂.cons ?_ restKnown⟩
          · rw [List.reduceOption_cons_of_some, restGrown, firstGrown, ← settle_append,
              List.singleton_append]
          · exact Option.Rel.some (Holds.grow restGrown firstKnown)

end SourceRegistry

theorem NameRegistry.add?_eq {table after : NameRegistry} {name : Option String}
    {index : Option Nat} (added : table.add? name = (index, after)) :
    after.names.toList = enlist id table.names.toList name.toList ∧
      Option.Rel (fun index name => after.names[index]? = some name) index name := by
  cases name with
  | none =>
      cases added
      exact ⟨rfl, Option.Rel.none⟩
  | some name =>
      unfold add? at added
      cases step : table.add name with
      | mk known grown =>
          simp only [step] at added
          cases added
          obtain ⟨isGrown, isKnown⟩ := add_eq step
          exact ⟨isGrown, Option.Rel.some isKnown⟩

theorem Location.Tells.grow {before after : Passage.Tables} {reached : List SourceRecord}
    {given : List String} {location : Location} {account : Mapping.Account}
    (tells : location.Tells before.sources.entries before.names.names account)
    (moreSources : after.sources.entries.toList =
      SourceRegistry.settle before.sources.entries.toList reached)
    (moreNames : after.names.names.toList = enlist id before.names.names.toList given) :
    location.Tells after.sources.entries after.names.names account where
  identity := by
    have holds : before.sources.Holds location.source ⟨account.trace.identity, none⟩ :=
      tells.identity
    exact holds.grow moreSources
  line := tells.line
  column := tells.column
  named := rel_mono (fun _ _ => NameRegistry.getElem?_of_enlist moreNames) tells.named

/-! ### One segment, then all -/

namespace Passage

def LeadsTo (passage : Passage) (entries : List (Option SourceRecord)) (tables : Tables) : Prop :=
  ∀ index : Nat,
    Option.Rel tables.sources.Holds passage.links[index]?.join entries[index]?.join

/-- What sending on one location does: the tables take in the source that is reached and the
name that is given, and the new location says what it should. -/
structure Sends (before : Tables) (reached : Option SourceRecord)
    (account : Option Mapping.Account) (origin : Option Location) (after : Tables) : Prop where
  moreSources : after.sources.entries.toList =
    SourceRegistry.settle before.sources.entries.toList reached.toList
  moreNames : after.names.names.toList =
    enlist id before.names.names.toList (account.bind (·.name)).toList
  tells : Option.Rel (Location.Tells after.sources.entries after.names.names) origin account

variable {passage : Passage} {entries : List (Option SourceRecord)} {before after : Tables}

theorem LeadsTo.grow (leads : passage.LeadsTo entries before) {reached : List SourceRecord}
    (moreSources : after.sources.entries.toList =
      SourceRegistry.settle before.sources.entries.toList reached) :
    passage.LeadsTo entries after := by
  intro index
  exact rel_mono (fun _ _ => SourceRegistry.Holds.grow moreSources) (leads index)

theorem name?_eq (passage : Passage) (location found : Location) (exact : Bool) (column : Nat) :
    passage.name? location found exact column =
      (if exact = true then found.name.bind (passage.inner.names[·]?) else none).or
        ((passage.outerName? location).filter fun name =>
          (passage.contents[found.source]?.join).any (·.standsAt name found.line column)) := by
  unfold name?
  cases exact with
  | false => rfl
  | true =>
      generalize found.name.bind (passage.inner.names[·]?) = innerName
      cases innerName with
      | none => rfl
      | some name => rfl

theorem keep_sends (leads : passage.LeadsTo entries before) (location : Location) :
    Sends before none
      ((entries[location.source]?.join).map fun entry =>
        ⟨⟨entry.identity, location.line, location.column⟩, passage.outerName? location⟩)
      (passage.keep before location).1 (passage.keep before location).2 := by
  have isLed := leads location.source
  unfold keep
  generalize passage.links[location.source]?.join = link at isLed
  generalize entries[location.source]?.join = kept at isLed
  cases isLed with
  | none => exact ⟨rfl, rfl, Option.Rel.none⟩
  | some holds =>
      cases added : before.names.add? (passage.outerName? location) with
      | mk index names =>
          obtain ⟨moreNames, named⟩ := NameRegistry.add?_eq added
          exact ⟨rfl, moreNames, Option.Rel.some ⟨holds, rfl, rfl, named⟩⟩

end Passage

namespace Intermediate

variable {intermediate : Intermediate} {outer : Mapping} {target : Nat}
  {links : List (Option Nat)} {before after : Passage.Tables} {origin : Option Location}

theorem passage_hit? {location : Location} (inTarget : location.source = target) :
    (intermediate.passage outer target links).hit? ⟨location.line, location.column⟩ =
      intermediate.hit? target location := by
  rw [hit?, if_pos inTarget, Passage.hit?, Mapping.covering_eq]
  rfl

theorem of_hit? {location found : Location} {segment : Segment} {entry : SourceRecord}
    (hit : intermediate.hit? target location = some (segment, found, entry)) :
    location.source = target ∧ intermediate.mapping.sources[found.source]? = some entry := by
  unfold hit? at hit
  split at hit
  · rename_i inTarget
    obtain ⟨_, _, hit⟩ := Option.bind_eq_some_iff.mp hit
    obtain ⟨_, _, hit⟩ := Option.bind_eq_some_iff.mp hit
    obtain ⟨_, isEntry, hit⟩ := Option.bind_eq_some_iff.mp hit
    cases hit
    exact ⟨inTarget, isEntry⟩
  · cases hit

theorem passage_name? {location found : Location} {segment : Segment} {entry : SourceRecord}
    (isEntry : intermediate.mapping.sources[found.source]? = some entry) :
    (intermediate.passage outer target links).name? location found
        (decide (segment.position.column = location.column))
        (found.column + (location.column - segment.position.column)) =
      (intermediate.tracedBy outer location segment found entry).name := by
  have content : (intermediate.passage outer target links).contents[found.source]?.join =
      entry.content.map IndexedText.ofString := by
    rw [passage, Array.getElem?_map, isEntry, Option.map_some, Option.join_some]
  have stands (name : String) :
      (entry.content.map IndexedText.ofString).any (·.standsAt name found.line
          (found.column + (location.column - segment.position.column))) =
        entry.content.any fun content => decide (Occurs name content ⟨found.line,
          found.column + (location.column - segment.position.column)⟩) := by
    cases entry.content with
    | none => rfl
    | some content =>
        rw [Option.map_some, Option.any_some, Option.any_some, Bool.eq_iff_iff, decide_eq_true_iff,
          IndexedText.standsAt_iff]
  rw [Passage.name?_eq, content]
  simp only [stands, decide_eq_true_eq]
  rfl

variable (found : outer.sources.findIdx?
  (fun entry => entry.identity == some intermediate.identity) = some target)

include found

theorem kept_eq {location : Location} (missed : intermediate.hit? target location = none) :
    ((intermediate.outerEntries outer target)[location.source]?.join).map (fun entry =>
      ⟨⟨entry.identity, location.line, location.column⟩,
        (intermediate.passage outer target links).outerName? location⟩) =
      intermediate.account? outer target location := by
  have identities := identity_outerEntries found location
  rw [account?, missed]
  have told := congrArg (Option.map fun identity : Option String =>
    (⟨⟨identity, location.line, location.column⟩,
      location.name.bind (outer.names[·]?)⟩ : Mapping.Account)) identities
  rw [Option.map_map, apply_ite (Option.map _), Option.map_map] at told
  exact told

section Leads

variable (leads : (intermediate.passage outer target links).LeadsTo
  (intermediate.outerEntries outer target) before)

include leads

theorem keep_sends_of_miss {location : Location}
    (missed : intermediate.hit? target location = none) :
    Passage.Sends before (intermediate.reached? target location)
      (intermediate.account? outer target location)
      ((intermediate.passage outer target links).keep before location).1
      ((intermediate.passage outer target links).keep before location).2 := by
  have keeps := Passage.keep_sends leads location
  rw [kept_eq found missed] at keeps
  rw [reached?, missed]
  exact keeps

theorem sendOn_sends {location : Location} (inTarget : location.source = target)
    (sent : (intermediate.passage outer target links).sendOn before location =
      .ok (origin, after)) :
    Passage.Sends before (intermediate.reached? target location)
      (intermediate.account? outer target location) origin after := by
  rw [Passage.sendOn, passage_hit? inTarget] at sent
  cases hit : intermediate.hit? target location with
  | none =>
      have keeps := keep_sends_of_miss found leads hit
      rw [hit] at sent
      rw [Except.ok.inj sent] at keeps
      exact keeps
  | some result =>
      obtain ⟨segment, inner, entry⟩ := result
      rw [hit] at sent
      obtain ⟨⟨source, sources⟩, added, sent⟩ := exists_of_bind_eq_ok sent
      obtain ⟨moreSources, holds⟩ := SourceRegistry.addRecord_eq_ok added
      rw [passage_name? (of_hit? hit).2] at sent
      cases step : before.names.add?
          (intermediate.tracedBy outer location segment inner entry).name with
      | mk index names =>
          rw [step] at sent
          cases sent
          obtain ⟨moreNames, named⟩ := NameRegistry.add?_eq step
          rw [reached?, account?, hit]
          exact ⟨moreSources, moreNames, Option.Rel.some ⟨holds, rfl, rfl, named⟩⟩

theorem redirect_sends {segment sent : Segment}
    (redirected : (intermediate.passage outer target links).redirect before segment =
      .ok (sent, after)) :
    sent.position = segment.position ∧
      Passage.Sends before (segment.origin.bind (intermediate.reached? target))
        (segment.origin.bind (intermediate.account? outer target)) sent.origin after := by
  unfold Passage.redirect at redirected
  cases isOrigin : segment.origin with
  | none =>
      simp only [isOrigin] at redirected
      cases redirected
      rw [isOrigin]
      exact ⟨rfl, rfl, rfl, Option.Rel.none⟩
  | some location =>
      simp only [isOrigin] at redirected
      split at redirected
      · rename_i inTarget
        obtain ⟨⟨origin, tables⟩, step, redirected⟩ := exists_of_bind_eq_ok redirected
        cases redirected
        exact ⟨rfl, sendOn_sends found leads inTarget step⟩
      · rename_i elsewhere
        cases redirected
        exact ⟨rfl, keep_sends_of_miss found leads (if_neg elsewhere)⟩

/-- What a run leaves: the inner sources that were reached and the names that were given are
in the tables, in order, and every segment stands where it stood and says what it should. -/
theorem redirectAll_sends {segments sent : List Segment}
    (redirected : (intermediate.passage outer target links).redirectAll before segments =
      .ok (sent, after)) :
    after.sources.entries.toList = SourceRegistry.settle before.sources.entries.toList
        (segments.filterMap fun segment => segment.origin.bind (intermediate.reached? target)) ∧
      after.names.names.toList = enlist id before.names.names.toList
        (segments.filterMap fun segment =>
          (segment.origin.bind (intermediate.account? outer target)).bind (·.name)) ∧
      List.Forall₂ (fun segment sent => sent.position = segment.position ∧
        Option.Rel (Location.Tells after.sources.entries after.names.names) sent.origin
          (segment.origin.bind (intermediate.account? outer target))) segments sent := by
  induction segments generalizing before sent with
  | nil =>
      cases redirected
      exact ⟨rfl, rfl, List.Forall₂.nil⟩
  | cons segment rest ih =>
      unfold Passage.redirectAll at redirected
      obtain ⟨⟨first, middle⟩, step, redirected⟩ := exists_of_bind_eq_ok redirected
      obtain ⟨⟨others, last⟩, remaining, redirected⟩ := exists_of_bind_eq_ok redirected
      cases redirected
      obtain ⟨inPlace, sends⟩ := redirect_sends found leads step
      obtain ⟨moreSources, moreNames, told⟩ := ih (leads.grow sends.moreSources) remaining
      refine ⟨?_, ?_, List.Forall₂.cons ⟨inPlace, ?_⟩ told⟩
      · rw [moreSources, sends.moreSources, ← SourceRegistry.settle_append,
          filterMap_cons_eq]
      · rw [moreNames, sends.moreNames, ← enlist_append, filterMap_cons_eq]
      · exact rel_mono (fun _ _ tells => tells.grow moreSources moreNames) sends.tells

end Leads

end Intermediate

/-! ### The whole mapping -/

namespace Mapping

variable {outer result : Mapping} {intermediate : Intermediate} {target : Nat} {stop : Position}
  (found : outer.sources.findIdx? (fun entry => entry.identity == some intermediate.identity) =
    some target)
  (traced : outer.through intermediate stop = .ok result)

include found traced

theorem through_eq_ok :
    ∃ links sources sent tables,
      SourceRegistry.addKnown {} (intermediate.outerEntries outer target) = .ok (links, sources) ∧
        (intermediate.passage outer target links).redirectAll { sources } outer.segments.toList =
          .ok (sent, tables) ∧
        result.segments.toList = Segment.prune stop sent ∧
        result.sources = tables.sources.entries ∧ result.names = tables.names.names := by
  unfold through at traced
  simp only [found] at traced
  obtain ⟨⟨links, sources⟩, added, traced⟩ := exists_of_bind_eq_ok traced
  obtain ⟨⟨sent, tables⟩, redirected, traced⟩ := exists_of_bind_eq_ok traced
  obtain ⟨mapping, built, traced⟩ := exists_of_bind_eq_ok traced
  have isResult := Except.ok.inj traced
  subst isResult
  obtain ⟨sameSegments, sameSources, sameNames, _, _⟩ := ofSegments_eq_ok built
  exact ⟨links, sources, sent, tables, added, redirected, sameSegments, sameSources, sameNames⟩

theorem exists_sent_of_through :
    ∃ sent, result.segments.toList = Segment.prune stop sent ∧
      result.sources.toList = SourceRegistry.settle []
        ((intermediate.outerEntries outer target).reduceOption ++
          outer.segments.toList.filterMap fun segment =>
            segment.origin.bind (intermediate.reached? target)) ∧
      result.names.toList = enlist id []
        (outer.segments.toList.filterMap fun segment =>
          (segment.origin.bind (intermediate.account? outer target)).bind (·.name)) ∧
      List.Forall₂ (fun segment sent => sent.position = segment.position ∧
        Option.Rel (Location.Tells result.sources result.names) sent.origin
          (segment.origin.bind (intermediate.account? outer target)))
        outer.segments.toList sent := by
  obtain ⟨links, sources, sent, tables, added, redirected, sameSegments, sameSources, sameNames⟩ :=
    through_eq_ok found traced
  obtain ⟨listed, known⟩ := SourceRegistry.addKnown_eq_ok added
  have leads : (intermediate.passage outer target links).LeadsTo
      (intermediate.outerEntries outer target) { sources } := by
    intro index
    rw [Intermediate.passage, List.getElem?_toArray]
    exact rel_getElem?_join known index
  obtain ⟨moreSources, moreNames, told⟩ := Intermediate.redirectAll_sends found leads redirected
  refine ⟨sent, sameSegments, ?_, ?_, ?_⟩
  · rw [sameSources, moreSources, listed, SourceRegistry.settle_append]
  · rw [sameNames, moreNames]
  · rw [sameSources, sameNames]
    exact told

/-- Every outer segment gives one segment where it stood, which says what its account is, and
of these the markers without effect are dropped. -/
theorem through_tells :
    ∃ sent, result.segments.toList = Segment.prune stop sent ∧
      List.Forall₂ (fun segment sent => sent.position = segment.position ∧
        Option.Rel (Location.Tells result.sources result.names) sent.origin
          (segment.origin.bind (intermediate.account? outer target)))
        outer.segments.toList sent := by
  obtain ⟨sent, pruned, _, _, told⟩ := exists_sent_of_through found traced
  exact ⟨sent, pruned, told⟩

end Mapping

theorem Mapping.through_tells_cases :
    let inner : Mapping :=
      { segments := #[⟨⟨1, 0⟩, some ⟨0, 1, 0, some 0⟩⟩, .traced ⟨1, 2⟩ 0 1 3, .marker ⟨1, 5⟩]
        sources := #[⟨some "hello", some "a😀name"⟩]
        names := #["n"]
        ordered := Segment.ordered_of_firstDisorder?_eq_none _ rfl
        numbered := by decide }
    let outer : Mapping :=
      { segments := #[⟨⟨1, 0⟩, some ⟨1, 1, 0, some 1⟩⟩, ⟨⟨1, 1⟩, some ⟨1, 1, 2, some 0⟩⟩,
          ⟨⟨1, 2⟩, some ⟨1, 1, 3, some 0⟩⟩, ⟨⟨1, 3⟩, some ⟨1, 1, 6, some 1⟩⟩,
          ⟨⟨1, 4⟩, some ⟨0, 7, 3, some 0⟩⟩, .marker ⟨1, 5⟩]
        sources := #[⟨some "other", none⟩, ⟨some "mid", none⟩]
        names := #["name", "kept"]
        ordered := Segment.ordered_of_firstDisorder?_eq_none _ rfl
        numbered := by decide }
    let intermediate : Intermediate := ⟨"mid", "text of mid", inner, false⟩
    outer.segments.toList.map (fun segment =>
        segment.origin.bind (intermediate.account? outer 1)) =
      [some ⟨⟨some "hello", 1, 0⟩, some "n"⟩, some ⟨⟨some "hello", 1, 3⟩, some "name"⟩,
        some ⟨⟨some "hello", 1, 4⟩, none⟩, some ⟨⟨some "mid", 1, 6⟩, some "kept"⟩,
        some ⟨⟨some "other", 7, 3⟩, some "name"⟩, none] ∧
      ∃ result sent, outer.through intermediate ⟨1, 6⟩ = .ok result ∧
        result.segments.toList = Segment.prune ⟨1, 6⟩ sent ∧
        List.Forall₂ (fun segment sent => sent.position = segment.position ∧
          Option.Rel (Location.Tells result.sources result.names) sent.origin
            (segment.origin.bind (intermediate.account? outer 1)))
          outer.segments.toList sent := by
  intro inner outer intermediate
  have found : outer.sources.findIdx? (fun entry =>
      entry.identity == some intermediate.identity) = some 1 := by decide +kernel
  have succeeds : (outer.through intermediate ⟨1, 6⟩).isOk = true := by decide +kernel
  obtain ⟨result, traced⟩ := exists_of_isOk succeeds
  obtain ⟨sent, pruned, told⟩ := through_tells found traced
  exact ⟨by decide +kernel, result, sent, traced, pruned, told⟩

end SourceWeave
