import SourceWeave.InnerMap
import SourceWeave.Proofs.Building

/-!
Tracing a mapping further leaves its segments where they are and points only into
the new tables, so that the redirected mapping can be built and is tidy again.
-/

set_option autoImplicit false

namespace SourceWeave

namespace SourceRegistry

variable (table : SourceRegistry)

theorem add_delivers (identity content : Option String) :
    Delivers MappingError.isOfParts (fun _ => True) (table.add identity content) := by
  cases found : table.indexOf? identity with
  | none =>
      simp only [add, found]
      exact .ok trivial
  | some index =>
      simp only [add, found]
      generalize conflicts _ _ = conflict
      cases conflict with
      | true => exact .error rfl
      | false => exact .ok trivial

theorem addRecord_delivers (entry : SourceRecord) :
    Delivers MappingError.isOfParts
      (fun added : Nat × SourceRegistry => table.entries.size ≤ added.2.entries.size ∧
        added.1 < added.2.entries.size) (table.addRecord entry) := by
  have within (added : Nat × SourceRegistry) (succeeds : table.addRecord entry = .ok added) :
      table.entries.size ≤ added.2.entries.size ∧ added.1 < added.2.entries.size := by
    obtain ⟨grown, known⟩ := addRecord_eq_ok succeeds
    obtain ⟨_, found, _⟩ := Option.map_eq_some_iff.mp known
    exact ⟨size_le_of_settle grown, (Array.getElem?_eq_some_iff.mp found).1⟩
  have sound := table.add_delivers entry.identity entry.content
  exact (sound.and_of_eq_ok within).mono fun _ both => both.2

theorem addAll_delivers (given : List SourceRecord) :
    Delivers MappingError.isOfParts (fun _ => True) (table.addAll given) := by
  induction given generalizing table with
  | nil => exact .ok trivial
  | cons entry rest ih =>
      unfold addAll
      refine (table.addRecord_delivers entry).bind ?_
      intro added _
      obtain ⟨index, middle⟩ := added
      exact (ih middle).bind fun _ _ => .ok trivial

theorem addKnown_delivers (given : List (Option SourceRecord)) :
    Delivers MappingError.isOfParts
      (fun added : List (Option Nat) × SourceRegistry =>
        table.entries.size ≤ added.2.entries.size ∧
          ∀ index, some index ∈ added.1 → index < added.2.entries.size)
      (table.addKnown given) := by
  induction given generalizing table with
  | nil =>
      refine .ok ⟨Nat.le_refl _, ?_⟩
      intro index impossible
      cases impossible
  | cons entry rest ih =>
      cases entry with
      | none =>
          unfold addKnown
          refine (ih table).bind ?_
          intro added grown
          obtain ⟨indices, after⟩ := added
          obtain ⟨larger, within⟩ := grown
          refine .ok ⟨larger, ?_⟩
          intro index member
          rcases List.mem_cons.mp member with impossible | inRest
          · cases impossible
          · exact within index inRest
      | some entry =>
          unfold addKnown
          refine (table.addRecord_delivers entry).bind ?_
          intro added grown
          obtain ⟨first, middle⟩ := added
          obtain ⟨middleLarger, firstWithin⟩ := grown
          refine (ih middle).bind ?_
          intro others othersGrown
          obtain ⟨indices, after⟩ := others
          obtain ⟨larger, within⟩ := othersGrown
          simp only at middleLarger firstWithin larger within
          refine .ok ⟨Nat.le_trans middleLarger larger, ?_⟩
          intro index member
          rcases List.mem_cons.mp member with isFirst | inRest
          · cases isFirst
            exact Nat.lt_of_lt_of_le firstWithin larger
          · exact within index inRest

end SourceRegistry

theorem NameRegistry.add?_within {table after : NameRegistry} {name : Option String}
    {index : Option Nat} (added : table.add? name = (index, after)) :
    table.names.size ≤ after.names.size ∧
      ∀ known, index = some known → known < after.names.size := by
  cases name with
  | none =>
      cases added
      refine ⟨Nat.le_refl _, ?_⟩
      intro known impossible
      cases impossible
  | some name =>
      unfold add? at added
      cases step : table.add name with
      | mk found grown =>
          simp only [step] at added
          cases added
          obtain ⟨isGrown, isFound⟩ := add_eq step
          refine ⟨size_le_of_enlist isGrown, ?_⟩
          intro known isKnown
          cases isKnown
          exact (Array.getElem?_eq_some_iff.mp isFound).1

namespace Passage

/-- What one redirection gives: the location points into the tables, which have grown. -/
structure Redirected (before : Tables) (origin : Option Location) (after : Tables) : Prop where
  moreSources : before.sources.entries.size ≤ after.sources.entries.size
  moreNames : before.names.names.size ≤ after.names.names.size
  within : ∀ location, origin = some location →
    location.source < after.sources.entries.size ∧
      ∀ name, location.name = some name → name < after.names.names.size

def LinksWithin (passage : Passage) (tables : Tables) : Prop :=
  ∀ (index source : Nat), passage.links[index]?.join = some source →
    source < tables.sources.entries.size

variable {passage : Passage} {tables : Tables}

theorem keep_redirected (linked : passage.LinksWithin tables) (location : Location) :
    Redirected tables (passage.keep tables location).1 (passage.keep tables location).2 := by
  unfold keep
  cases found : passage.links[location.source]?.join with
  | none =>
      refine ⟨Nat.le_refl _, Nat.le_refl _, ?_⟩
      intro other impossible
      cases impossible
  | some source =>
      cases added : tables.names.add? (passage.outerName? location) with
      | mk index names =>
          obtain ⟨moreNames, within⟩ := NameRegistry.add?_within added
          refine ⟨Nat.le_refl _, moreNames, ?_⟩
          intro other isOther
          cases isOther
          exact ⟨linked _ _ found, within⟩

theorem sendOn_delivers (linked : passage.LinksWithin tables) (location : Location) :
    Delivers MappingError.isOfParts
      (fun sent : Option Location × Tables => Redirected tables sent.1 sent.2)
      (passage.sendOn tables location) := by
  unfold sendOn
  split
  · exact .ok (keep_redirected linked location)
  · rename_i segment found entry _
    refine (tables.sources.addRecord_delivers entry).bind ?_
    intro added grown
    obtain ⟨source, sources⟩ := added
    obtain ⟨moreSources, within⟩ := grown
    simp only
    cases added : tables.names.add? (passage.name? location found
        (decide (segment.position.column = location.column))
        (found.column + (location.column - segment.position.column))) with
    | mk index names =>
        obtain ⟨moreNames, nameWithin⟩ := NameRegistry.add?_within added
        refine .ok ⟨moreSources, moreNames, ?_⟩
        intro other isOther
        cases isOther
        exact ⟨within, nameWithin⟩

theorem redirect_delivers (linked : passage.LinksWithin tables) (segment : Segment) :
    Delivers MappingError.isOfParts
      (fun sent : Segment × Tables => sent.1.position = segment.position ∧
        Redirected tables sent.1.origin sent.2)
      (passage.redirect tables segment) := by
  unfold redirect
  cases isOrigin : segment.origin with
  | none =>
      refine .ok ⟨rfl, Nat.le_refl _, Nat.le_refl _, ?_⟩
      intro location isLocation
      rw [isOrigin] at isLocation
      cases isLocation
  | some location =>
      simp only
      split
      · refine (sendOn_delivers linked location).bind ?_
        intro sent redirected
        obtain ⟨origin, after⟩ := sent
        exact .ok ⟨rfl, redirected⟩
      · exact .ok ⟨rfl, keep_redirected linked location⟩

theorem redirectAll_delivers (linked : passage.LinksWithin tables) (segments : List Segment) :
    Delivers MappingError.isOfParts
      (fun sent : List Segment × Tables =>
        sent.1.map Segment.position = segments.map Segment.position ∧
          tables.sources.entries.size ≤ sent.2.sources.entries.size ∧
          tables.names.names.size ≤ sent.2.names.names.size ∧
          Segment.InTables sent.2.sources.entries.size sent.2.names.names.size sent.1)
      (passage.redirectAll tables segments) := by
  induction segments generalizing tables with
  | nil =>
      refine .ok ⟨rfl, Nat.le_refl _, Nat.le_refl _, ?_⟩
      intro segment impossible
      cases impossible
  | cons segment rest ih =>
      unfold redirectAll
      refine (redirect_delivers linked segment).bind ?_
      intro sent kept
      obtain ⟨first, middle⟩ := sent
      obtain ⟨inPlace, redirected⟩ := kept
      simp only at inPlace redirected
      have linkedAfter : passage.LinksWithin middle := fun index source found =>
        Nat.lt_of_lt_of_le (linked index source found) redirected.moreSources
      refine (ih linkedAfter).bind ?_
      intro further furtherKept
      obtain ⟨others, after⟩ := further
      obtain ⟨othersInPlace, moreSources, moreNames, inTables⟩ := furtherKept
      simp only at othersInPlace moreSources moreNames inTables
      refine .ok ⟨?_, Nat.le_trans redirected.moreSources moreSources,
        Nat.le_trans redirected.moreNames moreNames, ?_⟩
      · rw [List.map_cons, List.map_cons, inPlace, othersInPlace]
      · intro other member location isLocation
        rcases List.mem_cons.mp member with isFirst | inRest
        · rw [isFirst] at isLocation
          obtain ⟨sourceWithin, nameWithin⟩ := redirected.within location isLocation
          exact ⟨Nat.lt_of_lt_of_le sourceWithin moreSources,
            fun name isName => Nat.lt_of_lt_of_le (nameWithin name isName) moreNames⟩
        · exact inTables other inRest location isLocation

end Passage

theorem Mapping.through_delivers {outer : Mapping} {stop : Position}
    (tidy : Segment.Tidy outer.sources.size outer.names.size stop outer.segments.toList)
    (noRoot : outer.sourceRoot = none) (intermediate : Intermediate) :
    Delivers MappingError.isOfParts
      (fun mapping : Mapping => Segment.Tidy mapping.sources.size mapping.names.size stop
        mapping.segments.toList ∧ mapping.sourceRoot = none)
      (outer.through intermediate stop) := by
  unfold through
  split
  · exact .ok ⟨tidy, noRoot⟩
  · rename_i target _
    refine (SourceRegistry.addKnown_delivers {} _).bind ?_
    intro added grown
    obtain ⟨links, sources⟩ := added
    obtain ⟨_, within⟩ := grown
    have linked : Passage.LinksWithin
        { outer, inner := intermediate.mapping, target, links := links.toArray,
          contents := intermediate.mapping.sources.map fun entry =>
            entry.content.map IndexedText.ofString } { sources } := by
      intro index source found
      rw [Option.join_eq_some_iff] at found
      apply within source
      rw [List.getElem?_toArray] at found
      exact List.mem_of_getElem? found
    refine (Passage.redirectAll_delivers linked outer.segments.toList).bind ?_
    intro sent kept
    obtain ⟨segments, tables⟩ := sent
    obtain ⟨inPlace, _, _, inTables⟩ := kept
    simp only at inPlace inTables
    have fewer := Segment.prune_sublist stop segments
    have ordered : Segment.Ordered segments := by
      apply List.pairwise_map.mp
      rw [inPlace]
      exact List.pairwise_map.mpr outer.ordered
    have positionOf {segment : Segment} (member : segment ∈ segments) :
        ∃ original ∈ outer.segments.toList, original.position = segment.position := by
      apply List.mem_map.mp
      rw [← inPlace]
      exact List.mem_map_of_mem member
    have numbered : Segment.Numbered segments := by
      intro segment member
      obtain ⟨original, inOuter, samePlace⟩ := positionOf member
      rw [← samePlace]
      exact outer.numbered original inOuter
    have built := Mapping.ofSegments_delivers (List.Pairwise.sublist fewer ordered)
      (numbered.sublist fewer) tables.sources.entries tables.names.names
    refine (built.and_of_eq_ok fun _ => Mapping.ofSegments_eq_ok).bind ?_
    intro mapping built
    obtain ⟨_, sameSegments, sameSources, sameNames, _, noRootAfter⟩ := built
    refine .ok ⟨?_, noRootAfter⟩
    rw [sameSegments, sameSources, sameNames]
    exact
      { ordered := List.Pairwise.sublist fewer ordered
        pruned := Segment.prune_pruned _ _
        inTables := inTables.sublist fewer
        inside := by
          intro segment member
          obtain ⟨original, inOuter, samePlace⟩ := positionOf (fewer.subset member)
          rw [← samePlace]
          exact tidy.inside original inOuter }

end SourceWeave
