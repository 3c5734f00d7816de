import SourceWeave.Proofs.Pruning

/-!
What a mapping says of a place, told without indices: where the place comes from,
and whether a segment stands there and under which name. Segments that are in
order, pruned and within their tables are determined by what they say.
-/

set_option autoImplicit false

namespace SourceWeave

/-- What is said of a place. `standing` is there if a traced segment starts at the
place itself, and holds the segment's name. -/
structure Mapping.Reading where
  trace : Mapping.Trace
  standing : Option (Option String)
deriving DecidableEq, Repr

namespace Segment

variable (sources : Array SourceRecord) (names : Array String)

def read (place : Position) (segment : Segment) : Option Mapping.Reading := do
  let location ← segment.origin
  let entry ← sources[location.source]?
  return {
    trace :=
      ⟨entry.identity, location.line, location.column + (place.column - segment.position.column)⟩
    standing :=
      if segment.position = place then some (location.name.bind (names[·]?)) else none }

def reading? (segments : List Segment) (place : Position) : Option Mapping.Reading :=
  (lastCovering place segments).bind (read sources names place)

def InTables (sourceCount nameCount : Nat) (segments : List Segment) : Prop :=
  ∀ segment ∈ segments, ∀ location, segment.origin = some location →
    location.source < sourceCount ∧ ∀ name, location.name = some name → name < nameCount

/-- Segments in their shortest form, for a text that ends at `stop`. -/
structure Tidy (sourceCount nameCount : Nat) (stop : Position) (segments : List Segment) :
    Prop where
  ordered : Ordered segments
  pruned : Pruned none segments
  inTables : InTables sourceCount nameCount segments
  inside : ∀ segment ∈ segments, segment.position < stop

theorem read_marker {place : Position} {segment : Segment} (marker : segment.isMarker = true) :
    read sources names place segment = none := by
  rw [read, Option.isNone_iff_eq_none.mp marker]
  rfl

theorem read_eq_some_iff {place : Position} {segment : Segment} {reading : Mapping.Reading} :
    read sources names place segment = some reading ↔
      ∃ location entry, segment.origin = some location ∧
        sources[location.source]? = some entry ∧
          reading =
            { trace := ⟨entry.identity, location.line,
                location.column + (place.column - segment.position.column)⟩
              standing :=
                if segment.position = place then some (location.name.bind (names[·]?))
                else none } := by
  unfold read
  cases segment.origin with
  | none => simp
  | some location =>
      cases found : sources[location.source]? with
      | none => simp [found]
      | some entry => simp [found, eq_comm]

theorem stands_iff_of_read {place : Position} {segment : Segment} {reading : Mapping.Reading}
    (told : read sources names place segment = some reading) :
    reading.standing.isSome = true ↔ segment.position = place := by
  obtain ⟨_, _, _, _, isReading⟩ := (read_eq_some_iff sources names).mp told
  rw [isReading]
  by_cases stands : segment.position = place
  · simp [stands]
  · simp [stands]

theorem reading?_eq_tracing (segments : List Segment) (place : Position) :
    reading? sources names segments place =
      (tracing place segments).bind (read sources names place) := by
  rw [reading?, tracing]
  cases lastCovering place segments with
  | none => rfl
  | some segment =>
      cases kind : segment.isMarker with
      | true => rw [unlessMarker_marker kind, Option.bind_some, read_marker sources names kind]; rfl
      | false => rw [unlessMarker_traced kind]

theorem InTables.sublist {sourceCount nameCount : Nat} {segments others : List Segment}
    (inTables : InTables sourceCount nameCount segments) (fewer : others.Sublist segments) :
    InTables sourceCount nameCount others :=
  fun segment member => inTables segment (fewer.subset member)

end Segment

namespace Mapping

def reading? (mapping : Mapping) (place : Position) : Option Reading :=
  Segment.reading? mapping.sources mapping.names mapping.segments.toList place

theorem trace?_eq_reading? (mapping : Mapping) (place : Position) :
    mapping.trace? place = (mapping.reading? place).map (·.trace) := by
  rw [trace?, covering_eq, reading?, Segment.reading?]
  cases Segment.lastCovering place mapping.segments.toList with
  | none => rfl
  | some segment =>
      change (segment.origin.bind _) = (Segment.read _ _ place segment).map _
      unfold Segment.read
      cases segment.origin with
      | none => rfl
      | some location =>
          change (mapping.sources[location.source]?.bind _) =
            (mapping.sources[location.source]?.bind _).map _
          cases mapping.sources[location.source]? <;> rfl

end Mapping

namespace Segment

section Tidy

variable {sources : Array SourceRecord} {names : Array String} {stop : Position}
  {segments : List Segment}

theorem reading?_position {segment : Segment} (ordered : Ordered segments)
    (member : segment ∈ segments) :
    reading? sources names segments segment.position =
      read sources names segment.position segment := by
  have found : lastCovering segment.position segments = some segment := by
    apply ordered.lastCovering_eq_some_iff.mpr
    refine ⟨member, covers_of_le rfl (Position.le_refl _), ?_⟩
    exact fun other _ covered => le_of_covers covered
  rw [reading?, found, Option.bind_some]

theorem read_ne_none {place : Position} {segment : Segment}
    (inTables : InTables sources.size names.size segments) (member : segment ∈ segments)
    (traced : segment.isMarker = false) : read sources names place segment ≠ none := by
  cases isOrigin : segment.origin with
  | none =>
      rw [isMarker, isOrigin] at traced
      cases traced
  | some location =>
      have within := (inTables segment member location isOrigin).1
      rw [read, isOrigin]
      simp [Array.getElem?_eq_getElem within]

/-- A marker stands where a traced run ends: nothing is said at its place, something
one column before. -/
theorem Tidy.marker_ends (tidy : Tidy sources.size names.size stop segments) {marker : Segment}
    (member : marker ∈ segments) (isMarker : marker.isMarker = true) :
    reading? sources names segments marker.position = none ∧
      ∃ column, marker.position.column = column + 1 ∧
        reading? sources names segments ⟨marker.position.line, column⟩ ≠ none := by
  constructor
  · rw [reading?_position tidy.ordered member, read_marker sources names isMarker]
  · obtain ⟨front, back, whole⟩ := List.append_of_mem member
    have pruned := tidy.pruned
    rw [whole] at pruned
    rcases pruned.before_marker isMarker with
      ⟨_, impossible⟩ | ⟨others, traced, isFront, isTraced, sameLine⟩
    · cases impossible
    · have ordered := tidy.ordered
      have split : segments = (others ++ [traced]) ++ marker :: back := by rw [whole, isFront]
      have inSegments : traced ∈ segments := by
        rw [split]
        exact List.mem_append_left _ (List.mem_append_right _ List.mem_cons_self)
      rw [split] at ordered
      obtain ⟨frontOrdered, backOrdered, across⟩ := List.pairwise_append.mp ordered
      have before := across traced (List.mem_append_right _ List.mem_cons_self) marker
        List.mem_cons_self
      rw [Position.lt_iff] at before
      refine ⟨marker.position.column - 1, by omega, ?_⟩
      have found : lastCovering ⟨marker.position.line, marker.position.column - 1⟩ segments =
          some traced := by
        apply tidy.ordered.lastCovering_eq_some_iff.mpr
        refine ⟨inSegments, covers_iff.mpr ⟨sameLine, by simp only; omega⟩, ?_⟩
        intro other inOther covered
        rw [split] at inOther
        rcases List.mem_append.mp inOther with inFront | inBack
        · rcases List.mem_append.mp inFront with inOthers | isLast
          · exact Position.le_of_lt
              ((List.pairwise_append.mp frontOrdered).2.2 other inOthers traced List.mem_cons_self)
          · rw [List.mem_singleton.mp isLast]
            exact Position.le_refl _
        · have atLeast : marker.position ≤ other.position := by
            rcases List.mem_cons.mp inBack with same | later
            · rw [same]
              exact Position.le_refl _
            · exact Position.le_of_lt ((List.pairwise_cons.mp backOrdered).1 other later)
          have covering := covers_iff.mp covered
          rw [Position.le_iff] at atLeast
          simp only at covering
          omega
      rw [reading?, found, Option.bind_some]
      exact read_ne_none tidy.inTables inSegments isTraced

theorem Tidy.exists_marker (tidy : Tidy sources.size names.size stop segments) {line column : Nat}
    (traced : reading? sources names segments ⟨line, column⟩ ≠ none)
    (silent : reading? sources names segments ⟨line, column + 1⟩ = none) :
    ⟨⟨line, column + 1⟩, none⟩ ∈ segments := by
  obtain ⟨before, found⟩ : ∃ segment, lastCovering ⟨line, column⟩ segments = some segment := by
    cases found : lastCovering ⟨line, column⟩ segments with
    | none => exact absurd (by rw [reading?, found]; rfl) traced
    | some segment => exact ⟨segment, rfl⟩
  obtain ⟨inSegments, covered, greatest⟩ := tidy.ordered.lastCovering_eq_some_iff.mp found
  have coverLine := covers_iff.mp covered
  have alsoCovers : covers ⟨line, column + 1⟩ before = true :=
    covers_iff.mpr ⟨coverLine.1, Nat.le_succ_of_le coverLine.2⟩
  obtain ⟨last, isLast, atLeast⟩ :=
    lastCovering_eq_some tidy.ordered.sorted inSegments alsoCovers
  obtain ⟨inLast, lastCovers⟩ := mem_of_lastCovering isLast
  have lastLine := covers_iff.mp lastCovers
  -- Only a marker can silence the next column, and only one that stands there.
  have isMarker : last.isMarker = true := by
    cases kind : last.isMarker with
    | true => rfl
    | false =>
        rw [reading?, isLast, Option.bind_some] at silent
        exact absurd silent (read_ne_none tidy.inTables inLast kind)
  have stands : last.position = ⟨line, column + 1⟩ := by
    apply Position.ext lastLine.1
    apply Classical.byContradiction
    intro different
    have lastBefore : covers ⟨line, column⟩ last = true := by
      have columns := lastLine.2
      simp only at columns different
      exact covers_iff.mpr ⟨lastLine.1, by simp only; omega⟩
    have same := tidy.ordered.eq_of_position inSegments inLast
      (Position.le_antisymm atLeast (greatest last inLast lastBefore))
    rw [reading?, found, Option.bind_some, same, read_marker sources names isMarker] at traced
    exact traced rfl
  have noOrigin : last.origin = none := Option.isNone_iff_eq_none.mp isMarker
  cases last
  simp only at stands noOrigin
  rw [← stands, ← noOrigin]
  exact inLast

end Tidy

section Determined

variable {sources : Array SourceRecord} {names : Array String}

theorem index_eq_of_key {α β : Type} {items : Array α} {key : α → β}
    (distinct : (items.toList.map key).Nodup) {left right : Nat} {first second : α}
    (leftAt : items[left]? = some first) (rightAt : items[right]? = some second)
    (same : key first = key second) : left = right := by
  rw [← Array.getElem?_toList] at leftAt rightAt
  have within : left < (items.toList.map key).length := by
    rw [List.length_map]
    exact (List.getElem?_eq_some_iff.mp leftAt).1
  apply (List.getElem?_inj within distinct).mp
  rw [List.getElem?_map, List.getElem?_map, leftAt, rightAt, Option.map_some, Option.map_some, same]

variable (distinctSources : (sources.toList.map SourceRecord.identity).Nodup)
  (distinctNames : names.toList.Nodup)

include distinctSources distinctNames

private theorem eq_of_read {place : Position} {left right : Segment} {reading : Mapping.Reading}
    (leftAt : left.position = place) (rightAt : right.position = place)
    (leftNamed : ∀ location name, left.origin = some location → location.name = some name →
      name < names.size)
    (rightNamed : ∀ location name, right.origin = some location → location.name = some name →
      name < names.size)
    (leftTold : read sources names place left = some reading)
    (rightTold : read sources names place right = some reading) : left = right := by
  obtain ⟨leftLocation, leftEntry, leftOrigin, leftFound, leftReading⟩ :=
    (read_eq_some_iff sources names).mp leftTold
  obtain ⟨rightLocation, rightEntry, rightOrigin, rightFound, rightReading⟩ :=
    (read_eq_some_iff sources names).mp rightTold
  have sameReading := leftReading.symm.trans rightReading
  rw [leftAt, rightAt, if_pos rfl, if_pos rfl, Nat.sub_self] at sameReading
  simp only [Mapping.Reading.mk.injEq, Mapping.Trace.mk.injEq, Nat.add_zero,
    Option.some.injEq] at sameReading
  obtain ⟨⟨sameIdentity, sameLine, sameColumn⟩, sameName⟩ := sameReading
  have sameSource := index_eq_of_key distinctSources leftFound rightFound sameIdentity
  have sameNameIndex : leftLocation.name = rightLocation.name := by
    cases isLeft : leftLocation.name with
    | none =>
        cases isRight : rightLocation.name with
        | none => rfl
        | some name =>
            have within := rightNamed rightLocation name rightOrigin isRight
            rw [isLeft, isRight, Option.bind_none, Option.bind_some,
              Array.getElem?_eq_getElem within] at sameName
            cases sameName
    | some name =>
        have within := leftNamed leftLocation name leftOrigin isLeft
        cases isRight : rightLocation.name with
        | none =>
            rw [isLeft, isRight, Option.bind_none, Option.bind_some,
              Array.getElem?_eq_getElem within] at sameName
            cases sameName
        | some other =>
            have otherWithin := rightNamed rightLocation other rightOrigin isRight
            rw [isLeft, isRight, Option.bind_some, Option.bind_some] at sameName
            have distinct : (names.toList.map id).Nodup := by rwa [List.map_id]
            exact congrArg some (index_eq_of_key distinct
              (sameName.trans (Array.getElem?_eq_getElem otherWithin))
              (Array.getElem?_eq_getElem otherWithin) rfl)
  have sameLocation : leftLocation = rightLocation := by
    cases leftLocation
    cases rightLocation
    simp only at sameSource sameLine sameColumn sameNameIndex
    rw [sameSource, sameLine, sameColumn, sameNameIndex]
  cases left
  cases right
  simp only at leftAt rightAt leftOrigin rightOrigin
  rw [leftAt, rightAt, leftOrigin, rightOrigin, sameLocation]

private theorem mem_of_reading {stop : Position} {left right : List Segment}
    (leftTidy : Tidy sources.size names.size stop left)
    (rightTidy : Tidy sources.size names.size stop right)
    (same : ∀ place, place < stop →
      reading? sources names left place = reading? sources names right place)
    {segment : Segment} (member : segment ∈ left) : segment ∈ right := by
  have inside := leftTidy.inside segment member
  cases kind : segment.isMarker with
  | true =>
      obtain ⟨silent, column, isColumn, traced⟩ := leftTidy.marker_ends member kind
      have here : segment.position = ⟨segment.position.line, column + 1⟩ :=
        Position.ext rfl isColumn
      have columnBefore : (⟨segment.position.line, column⟩ : Position) < stop := by
        refine Position.lt_of_le_of_lt ?_ inside
        rw [Position.le_iff]
        exact Or.inr ⟨rfl, by simp only; omega⟩
      have noOrigin : segment.origin = none := Option.isNone_iff_eq_none.mp kind
      have whole : segment = ⟨⟨segment.position.line, column + 1⟩, none⟩ := by
        cases segment
        simp only at here noOrigin
        rw [← here, noOrigin]
      rw [whole]
      apply rightTidy.exists_marker
      · rw [← same _ columnBefore]
        exact traced
      · rw [← here, ← same _ inside]
        exact silent
  | false =>
      cases told : read sources names segment.position segment with
      | none => exact absurd told (read_ne_none leftTidy.inTables member kind)
      | some reading =>
          have rightTold := same segment.position inside
          rw [reading?_position leftTidy.ordered member, told, reading?] at rightTold
          cases found : lastCovering segment.position right with
          | none =>
              rw [found] at rightTold
              cases rightTold
          | some other =>
              rw [found, Option.bind_some] at rightTold
              obtain ⟨inOther, _⟩ := mem_of_lastCovering found
              have stands : other.position = segment.position := by
                have standing := (stands_iff_of_read sources names told).mpr rfl
                exact (stands_iff_of_read sources names rightTold.symm).mp standing
              have equal := eq_of_read distinctSources distinctNames rfl stands
                (fun location name origin isName =>
                  (leftTidy.inTables segment member location origin).2 name isName)
                (fun location name origin isName =>
                  (rightTidy.inTables other inOther location origin).2 name isName)
                told rightTold.symm
              rw [equal]
              exact inOther

theorem Tidy.eq_of_reading {stop : Position} {left right : List Segment}
    (leftTidy : Tidy sources.size names.size stop left)
    (rightTidy : Tidy sources.size names.size stop right)
    (same : ∀ place, place < stop →
      reading? sources names left place = reading? sources names right place) : left = right := by
  apply leftTidy.ordered.eq_of_mem_iff rightTidy.ordered
  intro segment
  constructor
  · exact mem_of_reading distinctSources distinctNames leftTidy rightTidy same
  · exact mem_of_reading distinctSources distinctNames rightTidy leftTidy
      fun place before => (same place before).symm

end Determined

end Segment

theorem Mapping.reading?_of_unnumbered (mapping : Mapping) {place : Position}
    (unnumbered : place < Position.first) : mapping.reading? place = none := by
  rw [reading?, Segment.reading?, Segment.lastCovering_of_later]
  · rfl
  · intro segment member
    exact Position.lt_of_lt_of_le unnumbered (Position.first_le (mapping.numbered segment member))

/-- Mappings over one pair of tables are equal if they say the same of every place of
the text. -/
theorem Mapping.eq_of_reading {left right : Mapping} {stop : Position}
    (sameSources : left.sources = right.sources) (sameNames : left.names = right.names)
    (sameFile : left.file = right.file) (sameRoot : left.sourceRoot = right.sourceRoot)
    (distinctSources : (left.sources.toList.map SourceRecord.identity).Nodup)
    (distinctNames : left.names.toList.Nodup)
    (leftTidy : Segment.Tidy left.sources.size left.names.size stop left.segments.toList)
    (rightTidy : Segment.Tidy right.sources.size right.names.size stop right.segments.toList)
    (same : ∀ place, Position.first ≤ place → place < stop →
      left.reading? place = right.reading? place) : left = right := by
  have sameSegments : left.segments.toList = right.segments.toList := by
    rw [← sameSources, ← sameNames] at rightTidy
    refine Segment.Tidy.eq_of_reading distinctSources distinctNames leftTidy rightTidy ?_
    intro place inText
    change left.reading? place = Segment.reading? _ _ _ place
    rw [sameSources, sameNames]
    change _ = right.reading? place
    by_cases numbered : Position.first ≤ place
    · exact same place numbered inText
    · have unnumbered := Position.not_le.mp numbered
      rw [left.reading?_of_unnumbered unnumbered, right.reading?_of_unnumbered unnumbered]
  have sameArray := Array.toList_inj.mp sameSegments
  cases left
  cases right
  simp only at sameArray sameSources sameNames sameFile sameRoot
  simp only [sameArray, sameSources, sameNames, sameFile, sameRoot]

end SourceWeave
