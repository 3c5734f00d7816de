import SourceWeave.Proofs.Reading
import SourceWeave.Proofs.Tables

/-!
When a mapping can be built from its parts, and what comes of it. The check of the
parts fails only on segments out of order or on a line numbered zero, so clean-up,
which leaves segments where they are, never fails.
-/

set_option autoImplicit false

namespace SourceWeave

def Malformation.isOfParts : Malformation → Bool
  | .disorder _ _ => true
  | .lineZero _ => true
  | _ => false

def MappingError.isOfParts : MappingError → Bool
  | .malformed cause => cause.isOfParts
  | _ => false

/-- A result with a property, or an error that is no fault of the given kind. -/
structure Delivers {ε α : Type} (fault : ε → Bool) (property : α → Prop)
    (action : Except ε α) : Prop where
  of_eq_ok : ∀ result, action = .ok result → property result
  of_eq_error : ∀ cause, action = .error cause → fault cause = false

namespace Delivers

variable {ε α β : Type} {fault : ε → Bool} {property : α → Prop} {action : Except ε α}

theorem ok {result : α} (holds : property result) :
    Delivers fault property (.ok result : Except ε α) := by
  refine ⟨?_, ?_⟩
  · intro other same
    cases same
    exact holds
  · intro cause impossible
    cases impossible

theorem error {cause : ε} (other : fault cause = false) :
    Delivers fault property (.error cause : Except ε α) := by
  refine ⟨?_, ?_⟩
  · intro result impossible
    cases impossible
  · intro same isCause
    cases isCause
    exact other

theorem bind {further : β → Prop} {next : α → Except ε β} (first : Delivers fault property action)
    (second : ∀ result, property result → Delivers fault further (next result)) :
    Delivers fault further (action >>= next) := by
  cases action with
  | error cause => exact .error (first.of_eq_error cause rfl)
  | ok result => exact second result (first.of_eq_ok result rfl)

theorem map {further : β → Prop} {change : α → β} (delivers : Delivers fault property action)
    (changed : ∀ result, property result → further (change result)) :
    Delivers fault further (change <$> action) := by
  cases action with
  | error cause => exact .error (delivers.of_eq_error cause rfl)
  | ok result => exact .ok (changed result (delivers.of_eq_ok result rfl))

theorem mono {further : α → Prop} (delivers : Delivers fault property action)
    (stronger : ∀ result, property result → further result) : Delivers fault further action :=
  ⟨fun result succeeds => stronger result (delivers.of_eq_ok result succeeds),
    delivers.of_eq_error⟩

theorem and_of_eq_ok {further : α → Prop} (delivers : Delivers fault property action)
    (known : ∀ result, action = .ok result → further result) :
    Delivers fault (fun result => property result ∧ further result) action :=
  ⟨fun result succeeds => ⟨delivers.of_eq_ok result succeeds, known result succeeds⟩,
    delivers.of_eq_error⟩

end Delivers

namespace Segment

def Numbered (segments : List Segment) : Prop :=
  ∀ segment ∈ segments, segment.position.line ≠ 0

theorem Numbered.sublist {segments others : List Segment} (numbered : Numbered segments)
    (fewer : others.Sublist segments) : Numbered others :=
  fun segment member => numbered segment (fewer.subset member)

theorem firstDisorder?_eq_none {segments : List Segment} (ordered : Ordered segments) :
    firstDisorder? segments = none := by
  fun_induction firstDisorder? segments with
  | case1 earlier later rest _before ih => exact ih (List.pairwise_cons.mp ordered).2
  | case2 earlier later rest notBefore =>
      exact absurd ((List.pairwise_cons.mp ordered).1 later List.mem_cons_self) notBefore
  | case3 => rfl

theorem Ordered.map {segments : List Segment} (ordered : Ordered segments)
    {change : Segment → Segment}
    (inPlace : ∀ segment, (change segment).position = segment.position) :
    Ordered (segments.map change) := by
  apply List.pairwise_map.mpr
  refine List.Pairwise.imp ?_ ordered
  intro earlier later before
  rw [inPlace, inPlace]
  exact before

theorem Numbered.map {segments : List Segment} (numbered : Numbered segments)
    {change : Segment → Segment}
    (inPlace : ∀ segment, (change segment).position = segment.position) :
    Numbered (segments.map change) := by
  intro segment member
  obtain ⟨original, inSegments, isSegment⟩ := List.mem_map.mp member
  rw [← isSegment, inPlace]
  exact numbered original inSegments

/-! ### One segment for every line -/

theorem Ordered.line_le {first : Segment} {rest : List Segment} (ordered : Ordered (first :: rest))
    {segment : Segment} (member : segment ∈ rest) : first.position.line ≤ segment.position.line := by
  have before := (List.pairwise_cons.mp ordered).1 segment member
  rw [Position.lt_iff] at before
  omega

/-- What is left of some lines stands on these, behind the line that has its segment already. -/
theorem line_of_mem_firstTracedFrom {held : Option Nat} {segments : List Segment}
    (ordered : Ordered segments)
    (behind : ∀ line, held = some line → ∀ segment ∈ segments, line ≤ segment.position.line)
    {segment : Segment} (member : segment ∈ firstTracedFrom held segments) :
    (∃ original ∈ segments, segment.position.line = original.position.line) ∧
      ∀ line, held = some line → line < segment.position.line := by
  induction segments generalizing held with
  | nil => cases member
  | cons first rest ih =>
      have restOrdered := (List.pairwise_cons.mp ordered).2
      have further {line : Option Nat} (inRest : segment ∈ firstTracedFrom line rest)
          (restBehind : ∀ given, line = some given → ∀ other ∈ rest,
            given ≤ other.position.line) :
          (∃ original ∈ first :: rest, segment.position.line = original.position.line) ∧
            ∀ given, line = some given → given < segment.position.line := by
        obtain ⟨⟨original, inTail, sameLine⟩, isBehind⟩ := ih restOrdered restBehind inRest
        exact ⟨⟨original, List.mem_cons_of_mem first inTail, sameLine⟩, isBehind⟩
      have restBehind (line : Nat) (isHeld : held = some line) (other : Segment)
          (inRest : other ∈ rest) : line ≤ other.position.line :=
        behind line isHeld other (List.mem_cons_of_mem first inRest)
      simp only [firstTracedFrom] at member
      split at member
      · exact further member restBehind
      · split at member
        · exact further member restBehind
        · rename_i location _ new
          have passed (line : Nat) (isHeld : held = some line) : line < first.position.line := by
            have atMost := behind line isHeld first List.mem_cons_self
            exact Nat.lt_of_le_of_ne atMost (fun same => new (by rw [isHeld, same]))
          rcases List.mem_cons.mp member with isFirst | inRest
          · rw [isFirst]
            exact ⟨⟨first, List.mem_cons_self, rfl⟩, passed⟩
          · obtain ⟨onLine, isBehind⟩ := further inRest (by
              intro line isLine other inOther
              rw [← Option.some.inj isLine]
              exact ordered.line_le inOther)
            refine ⟨onLine, ?_⟩
            intro line isHeld
            exact Nat.lt_trans (passed line isHeld) (isBehind _ rfl)

theorem firstTracedFrom_ordered {held : Option Nat} {segments : List Segment}
    (ordered : Ordered segments) : Ordered (firstTracedFrom held segments) := by
  induction segments generalizing held with
  | nil => exact List.Pairwise.nil
  | cons first rest ih =>
      have restOrdered := (List.pairwise_cons.mp ordered).2
      simp only [firstTracedFrom]
      split
      · exact ih restOrdered
      · split
        · exact ih restOrdered
        · refine List.pairwise_cons.mpr ⟨?_, ih restOrdered⟩
          intro segment inRest
          have isBehind := (line_of_mem_firstTracedFrom restOrdered (by
            intro line isLine other inOther
            rw [← Option.some.inj isLine]
            exact ordered.line_le inOther) inRest).2 first.position.line rfl
          exact Or.inl isBehind

end Segment

namespace Mapping

variable {segments : List Segment} {sources : Array SourceRecord} {names : Array String}
  {mapping result : Mapping} {stop : Position}

theorem exists_ofSegments (ordered : Segment.Ordered segments)
    (numbered : Segment.Numbered segments) (sources : Array SourceRecord)
    (names : Array String) : ∃ built, ofSegments segments sources names = .ok built := by
  unfold ofSegments
  split
  · rename_i earlier later disorder
    rw [Segment.firstDisorder?_eq_none ordered] at disorder
    cases disorder
  · split
    · rename_i _ segment isZero
      have member := List.mem_of_find?_eq_some isZero
      have zero := List.find?_some isZero
      exact absurd (eq_of_beq zero) (numbered segment member)
    · exact ⟨_, rfl⟩

theorem ofSegments_delivers (ordered : Segment.Ordered segments)
    (numbered : Segment.Numbered segments) (sources : Array SourceRecord)
    (names : Array String) :
    Delivers MappingError.isOfParts (fun _ => True) (ofSegments segments sources names) := by
  obtain ⟨built, isBuilt⟩ := exists_ofSegments ordered numbered sources names
  rw [isBuilt]
  exact .ok trivial

theorem ofSegments_eq_ok (built : ofSegments segments sources names = .ok result) :
    result.segments.toList = segments ∧ result.sources = sources ∧ result.names = names ∧
      result.file = none ∧ result.sourceRoot = none := by
  unfold ofSegments at built
  split at built
  · cases built
  · split at built
    · cases built
    · cases built
      exact ⟨rfl, rfl, rfl, rfl, rfl⟩

theorem exists_withSegments (mapping : Mapping) (ordered : Segment.Ordered segments)
    (numbered : Segment.Numbered segments) :
    ∃ built, mapping.withSegments segments = .ok built := by
  obtain ⟨built, isBuilt⟩ := exists_ofSegments ordered numbered mapping.sources mapping.names
  rw [withSegments, isBuilt]
  exact ⟨_, rfl⟩

theorem withSegments_eq_ok (built : mapping.withSegments segments = .ok result) :
    result.segments.toList = segments ∧ result.sources = mapping.sources ∧
      result.names = mapping.names ∧ result.sourceRoot = mapping.sourceRoot := by
  obtain ⟨replaced, isReplaced, built⟩ := exists_of_bind_eq_ok built
  cases built
  obtain ⟨sameSegments, sameSources, sameNames, _, _⟩ := ofSegments_eq_ok isReplaced
  exact ⟨sameSegments, sameSources, sameNames, rfl⟩

theorem file_of_withSegments (built : mapping.withSegments segments = .ok result) :
    result.file = mapping.file := by
  obtain ⟨replaced, _, built⟩ := exists_of_bind_eq_ok built
  cases built
  rfl

theorem exists_byLine (mapping : Mapping) : ∃ built, mapping.byLine = .ok built := by
  apply mapping.exists_withSegments (Segment.firstTracedFrom_ordered mapping.ordered)
  intro segment member
  obtain ⟨⟨original, inMapping, sameLine⟩, _⟩ := Segment.line_of_mem_firstTracedFrom
    mapping.ordered (by intro line impossible; cases impossible) member
  rw [sameLine]
  exact mapping.numbered original inMapping

/-! ### Describing a text that ends -/

theorem rooted_segments (mapping : Mapping) : mapping.rooted.segments = mapping.segments := by
  unfold rooted
  split <;> rfl

theorem rooted_sources_size (mapping : Mapping) :
    mapping.rooted.sources.size = mapping.sources.size := by
  unfold rooted
  split
  · rfl
  · rfl
  · exact Array.size_map

theorem rooted_names (mapping : Mapping) : mapping.rooted.names = mapping.names := by
  unfold rooted
  split <;> rfl

theorem rooted_sourceRoot (mapping : Mapping) : mapping.rooted.sourceRoot = none := by
  unfold rooted
  split
  · assumption
  · rfl
  · rfl

theorem rooted_file (mapping : Mapping) : mapping.rooted.file = mapping.file := by
  unfold rooted
  split <;> rfl

theorem exists_confined (mapping : Mapping) : ∃ built, mapping.confined = .ok built :=
  mapping.exists_withSegments (Segment.Ordered.map mapping.ordered fun _ => rfl)
    (Segment.Numbered.map mapping.numbered fun _ => rfl)

theorem sublist_cut (mapping : Mapping) (stop : Position) :
    (Segment.prune stop (mapping.segments.toList.take (mapping.countBefore stop))).Sublist
      mapping.segments.toList :=
  (Segment.prune_sublist _ _).trans (List.take_sublist _ _)

theorem exists_cutTo (mapping : Mapping) (stop : Position) :
    ∃ built, mapping.cutTo stop = .ok built := by
  obtain ⟨inside, isConfined⟩ := mapping.exists_confined
  have fewer := inside.rooted.sublist_cut stop
  rw [cutTo, isConfined]
  exact inside.rooted.exists_withSegments (List.Pairwise.sublist fewer inside.rooted.ordered)
    (Segment.Numbered.sublist inside.rooted.numbered fewer)

theorem inTables_confined (sourceCount nameCount : Nat) (segments : List Segment) :
    Segment.InTables sourceCount nameCount
      (segments.map (Segment.confined sourceCount nameCount)) := by
  intro segment member location isLocation
  obtain ⟨original, _, isSegment⟩ := List.mem_map.mp member
  rw [← isSegment, Segment.confined] at isLocation
  obtain ⟨found, isFound, isConfined⟩ := Option.map_eq_some_iff.mp isLocation
  obtain ⟨_, known⟩ := Option.filter_eq_some_iff.mp isFound
  rw [← isConfined]
  refine ⟨of_decide_eq_true known, ?_⟩
  intro name isName
  obtain ⟨_, nameKnown⟩ := Option.filter_eq_some_iff.mp isName
  exact of_decide_eq_true nameKnown

theorem cutTo_eq_ok (cut : mapping.cutTo stop = .ok result) :
    Segment.Tidy result.sources.size result.names.size stop result.segments.toList ∧
      result.sourceRoot = none := by
  obtain ⟨inside, isConfined, cut⟩ := exists_of_bind_eq_ok cut
  obtain ⟨sameSegments, sameSources, sameNames, sameRoot⟩ := withSegments_eq_ok cut
  obtain ⟨confinedSegments, confinedSources, confinedNames, _⟩ := withSegments_eq_ok isConfined
  have fewer := inside.rooted.sublist_cut stop
  refine ⟨?_, sameRoot.trans inside.rooted_sourceRoot⟩
  rw [sameSegments, sameSources, sameNames, rooted_sources_size, rooted_names]
  exact
    { ordered := List.Pairwise.sublist fewer inside.rooted.ordered
      pruned := Segment.prune_pruned _ _
      inTables := by
        refine Segment.InTables.sublist ?_ fewer
        rw [rooted_segments, confinedSegments, confinedSources, confinedNames]
        exact inTables_confined _ _ _
      inside := by
        intro segment member
        have kept := (Segment.prune_sublist _ _).subset member
        rw [take_countBefore] at kept
        exact of_decide_eq_true (List.mem_filter.mp kept).2 }

end Mapping

end SourceWeave
