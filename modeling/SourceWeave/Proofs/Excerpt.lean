import SourceWeave.Assembly
import SourceWeave.Proofs.Reading
import SourceWeave.Proofs.Tables

/-!
What one copy contributes. The segments of a copy are those of the copied range,
with a segment at its start, told in the common tables and moved to where the copy
lands; of every place in the range they say what the child says of it.
-/

set_option autoImplicit false

namespace SourceWeave

/-- What is said of a place of a woven text. A text that is a source of its own is
traced to itself line by line. -/
def TracedText.reading? (traced : TracedText) (place : Position) : Option Mapping.Reading :=
  match traced.provenance with
  | .unknown => none
  | .own identity =>
      some
        { trace := ⟨some identity, place.line, place.column⟩
          standing := if place.column = 0 then some none else none }
  | .mapped mapping => mapping.reading? place

def TracedText.entries (traced : TracedText) : List SourceRecord :=
  match traced.provenance with
  | .unknown => []
  | .own identity => [⟨some identity, some traced.text⟩]
  | .mapped mapping => mapping.sources.toList

def TracedText.nameEntries (traced : TracedText) : List String :=
  match traced.provenance with
  | .mapped mapping => mapping.names.toList
  | _ => []

/-- What a copy from `start` on says: at the start itself a segment stands, whose name is
known only if a segment of the child stands there. -/
def Mapping.Reading.copiedFrom (start place : Position) (reading : Mapping.Reading) :
    Mapping.Reading :=
  if place = start then { reading with standing := some reading.standing.join } else reading

theorem Mapping.Reading.copiedFrom_of_ne {start place : Position} (elsewhere : place ≠ start) :
    copiedFrom start place = id := by
  funext reading
  exact if_neg elsewhere

/-- The links lead from a child's tables to the same entries of the common ones. -/
inductive Links.Fits (sources : Array SourceRecord) (names : Array String) :
    Links → Provenance → Prop
  | unknown : Fits sources names .unknown .unknown
  | own {source : Nat} {identity : String}
      (known : (sources[source]?).map SourceRecord.identity = some (some identity)) :
      Fits sources names (.own source) (.own identity)
  | mapped {mapping : Mapping} {sourceIndices nameIndices : Array Nat}
      (sourcesKnown : List.Forall₂
        (fun entry index => (sources[index]?).map SourceRecord.identity = some entry.identity)
        mapping.sources.toList sourceIndices.toList)
      (namesKnown : List.Forall₂ (fun name index => names[index]? = some name)
        mapping.names.toList nameIndices.toList) :
      Fits sources names (.mapped mapping sourceIndices nameIndices) (.mapped mapping)

namespace Segment

def moved (origin target : Position) (segment : Segment) : Segment :=
  ⟨segment.position.relocate origin target, segment.origin⟩

theorem moved_start (start target : Position) (origin : Option Location) :
    moved start target ⟨start, origin⟩ = ⟨target, origin⟩ := by
  rw [moved, Position.relocate_self]

section Moved

variable {sources : Array SourceRecord} {names : Array String} {origin target place : Position}
  {segments : List Segment}

theorem covers_moved {segment : Segment} (fromOrigin : origin ≤ segment.position)
    (fromTarget : target ≤ place) :
    covers place (segment.moved origin target) =
      covers (place.relocate target origin) segment := by
  rw [Position.le_iff] at fromOrigin fromTarget
  rw [Bool.eq_iff_iff, covers_iff, covers_iff, moved]
  simp only [Position.relocate_line, Position.relocate_column]
  repeat' split
  all_goals omega

theorem lastCovering_moved (fromOrigin : ∀ segment ∈ segments, origin ≤ segment.position)
    (fromTarget : target ≤ place) :
    lastCovering place (segments.map (moved origin target)) =
      (lastCovering (place.relocate target origin) segments).map (moved origin target) := by
  have same : segments.filter (covers place ∘ moved origin target) =
      segments.filter (covers (place.relocate target origin)) := by
    apply List.filter_congr
    intro segment member
    exact covers_moved (fromOrigin segment member) fromTarget
  rw [lastCovering, List.filter_map, same, List.getLast?_map, lastCovering]

theorem read_moved {segment : Segment} (fromOrigin : origin ≤ segment.position)
    (fromTarget : target ≤ place)
    (covered : covers (place.relocate target origin) segment = true) :
    read sources names place (segment.moved origin target) =
      read sources names (place.relocate target origin) segment := by
  have lines := covers_iff.mp covered
  have distance : place.column - (segment.position.relocate origin target).column =
      (place.relocate target origin).column - segment.position.column := by
    rw [Position.le_iff] at fromOrigin fromTarget
    simp only [Position.relocate_line, Position.relocate_column] at lines ⊢
    revert lines
    repeat' split
    all_goals omega
  have stands : segment.position.relocate origin target = place ↔
      segment.position = place.relocate target origin := by
    constructor
    · intro here
      rw [← here, Position.relocate_back fromOrigin]
    · intro here
      rw [here, Position.relocate_back fromTarget]
  rw [read, read, moved]
  simp only [distance, stands]

theorem reading?_moved (fromOrigin : ∀ segment ∈ segments, origin ≤ segment.position)
    (fromTarget : target ≤ place) :
    reading? sources names (segments.map (moved origin target)) place =
      reading? sources names segments (place.relocate target origin) := by
  rw [reading?, reading?, lastCovering_moved fromOrigin fromTarget]
  cases found : lastCovering (place.relocate target origin) segments with
  | none => rfl
  | some segment =>
      obtain ⟨member, covered⟩ := mem_of_lastCovering found
      exact read_moved (fromOrigin segment member) fromTarget covered

end Moved

/-! ### Entering the common tables -/

def relinked (sources names : Array Nat) (segment : Segment) : Segment :=
  ⟨segment.position, segment.origin.bind (Location.relink sources names)⟩

theorem lastCovering_relinked (sources names : Array Nat) (segments : List Segment)
    (place : Position) :
    lastCovering place (segments.map (relinked sources names)) =
      (lastCovering place segments).map (relinked sources names) :=
  lastCovering_map place (relinked sources names) (fun _ => rfl) segments

end Segment

private theorem getElem?_of_forall₂ {α β : Type} {related : α → β → Prop} {left : Array α}
    {right : Array β} (alike : List.Forall₂ related left.toList right.toList) (index : Nat) :
    (left[index]? = none ∧ right[index]? = none) ∨
      ∃ first second, left[index]? = some first ∧ right[index]? = some second ∧
        related first second := by
  rw [← Array.getElem?_toList, ← Array.getElem?_toList]
  generalize left.toList = firsts at alike
  generalize right.toList = seconds at alike
  induction alike generalizing index with
  | nil => exact Or.inl ⟨rfl, rfl⟩
  | @cons first second firsts seconds related _ ih =>
      cases index with
      | zero => exact Or.inr ⟨first, second, rfl, rfl, related⟩
      | succ index => exact ih index

section Relink

variable {sources : Array SourceRecord} {names : Array String} {mapping : Mapping}
  {sourceIndices nameIndices : Array Nat}

theorem relink_cases (fits : Links.Fits sources names (.mapped mapping sourceIndices nameIndices)
      (.mapped mapping)) (location : Location) :
    (mapping.sources[location.source]? = none ∧
        location.relink sourceIndices nameIndices = none) ∨
      ∃ entry common source name, mapping.sources[location.source]? = some entry ∧
        sources[source]? = some common ∧ common.identity = entry.identity ∧
          location.relink sourceIndices nameIndices =
            some { location with source, name } ∧
          name.bind (names[·]?) = location.name.bind (mapping.names[·]?) ∧
          ∀ index, name = some index → index < names.size := by
  cases fits with
  | mapped sourcesKnown namesKnown =>
      rcases getElem?_of_forall₂ sourcesKnown location.source with
        ⟨missing, unlinked⟩ | ⟨entry, source, isEntry, isSource, known⟩
      · left
        refine ⟨missing, ?_⟩
        rw [Location.relink, unlinked]
        rfl
      · right
        obtain ⟨common, isCommon, sameIdentity⟩ := Option.map_eq_some_iff.mp known
        refine ⟨entry, common, source, location.name.bind (nameIndices[·]?), isEntry, isCommon,
          sameIdentity, ?_, ?_, ?_⟩
        · rw [Location.relink, isSource]
          rfl
        · cases location.name with
          | none => rfl
          | some index =>
              rw [Option.bind_some, Option.bind_some]
              rcases getElem?_of_forall₂ namesKnown index with
                ⟨missing, unlinked⟩ | ⟨name, linked, isName, isLinked, sameName⟩
              · rw [missing, unlinked]
                rfl
              · rw [isName, isLinked, Option.bind_some, sameName]
        · intro index isIndex
          cases isName : location.name with
          | none =>
              rw [isName] at isIndex
              cases isIndex
          | some given =>
              rw [isName, Option.bind_some] at isIndex
              rcases getElem?_of_forall₂ namesKnown given with
                ⟨_, unlinked⟩ | ⟨_, linked, _, isLinked, sameName⟩
              · rw [unlinked] at isIndex
                cases isIndex
              · rw [isLinked, Option.some.injEq] at isIndex
                rw [← isIndex]
                exact (Array.getElem?_eq_some_iff.mp sameName).1

theorem read_relinked (fits : Links.Fits sources names (.mapped mapping sourceIndices nameIndices)
      (.mapped mapping)) (place : Position) (segment : Segment) :
    Segment.read sources names place (segment.relinked sourceIndices nameIndices) =
      Segment.read mapping.sources mapping.names place segment := by
  rw [Segment.read, Segment.read, Segment.relinked]
  cases segment.origin with
  | none => rfl
  | some location =>
      rcases relink_cases fits location with
        ⟨missing, unlinked⟩ | ⟨entry, common, source, name, isEntry, isCommon, sameIdentity,
          linked, sameName, _⟩
      · simp [missing, unlinked]
      · simp [linked, isEntry, isCommon, sameIdentity, sameName]

theorem read_head (fits : Links.Fits sources names (.mapped mapping sourceIndices nameIndices)
      (.mapped mapping)) {start place : Position} {segment : Segment}
    (found : Segment.lastCovering start mapping.segments.toList = some segment)
    (inOrder : start ≤ place) (onLine : start.line = place.line) :
    Segment.read sources names place
        ⟨start, mapping.headOrigin sourceIndices nameIndices start⟩ =
      (Segment.read mapping.sources mapping.names place segment).map
        (Mapping.Reading.copiedFrom start place) := by
  have covered := Segment.covers_iff.mp (Segment.mem_of_lastCovering found).2
  rw [Position.le_iff] at inOrder
  rw [Mapping.headOrigin, mapping.covering_eq, found, Segment.read, Segment.read]
  cases isOrigin : segment.origin with
  | none => simp [isOrigin]
  | some location =>
      rcases relink_cases fits location with
        ⟨missing, unlinked⟩ | ⟨entry, common, source, name, isEntry, isCommon, sameIdentity,
          linked, sameName, _⟩
      · simp [isOrigin, missing, unlinked]
      · by_cases exact : segment.position.column = start.column
        · have here : segment.position = start := Position.ext covered.1 exact
          by_cases atStart : start = place
          · simp [isOrigin, linked, isEntry, isCommon, sameIdentity, sameName, here, atStart,
              Mapping.Reading.copiedFrom]
          · simp [isOrigin, linked, isEntry, isCommon, sameIdentity, here, atStart,
              Mapping.Reading.copiedFrom, Ne.symm atStart]
        · -- The origin is moved on in two steps, to the start and from there to the place.
          have distance : location.column + (start.column - segment.position.column) +
              (place.column - start.column) =
                location.column + (place.column - segment.position.column) := by
            omega
          have elsewhere : segment.position ≠ place := by
            intro here
            rw [here] at covered exact
            omega
          by_cases atStart : start = place
          · subst atStart
            simp [isOrigin, linked, isEntry, isCommon, sameIdentity, exact, elsewhere,
              Mapping.Reading.copiedFrom]
          · simp [isOrigin, linked, isEntry, isCommon, sameIdentity, exact, elsewhere, atStart,
              Ne.symm atStart, Mapping.Reading.copiedFrom, distance]

end Relink

/-! ### The segments of a copy -/

def furtherLines (start stop : Position) : List Position :=
  ((List.range (stop.line - start.line)).map fun count =>
    (⟨start.line + 1 + count, 0⟩ : Position)).filter fun place => place < stop

def Links.locals (links : Links) (start stop : Position) : List Segment :=
  match links with
  | .unknown => [Segment.marker start]
  | .own source =>
      Segment.traced start source start.line start.column ::
        (furtherLines start stop).map fun place => Segment.traced place source place.line 0
  | .mapped mapping sources names =>
      ⟨start, mapping.headOrigin sources names start⟩ ::
        (mapping.segments.toList.filter fun segment =>
          decide (start < segment.position ∧ segment.position < stop)).map
            (Segment.relinked sources names)

theorem Links.segments_eq (links : Links) {start stop : Position} (inOrder : start ≤ stop)
    (target : Position) :
    links.segments start stop target =
      (links.locals start stop).map (Segment.moved start target) := by
  cases links with
  | unknown =>
      exact congrArg (fun head => [head]) (Segment.moved_start start target none).symm
  | own source =>
      rw [segments, ownSegments, locals, List.map_cons, List.map_map, Segment.traced,
        Segment.traced, Segment.moved_start]
      rfl
  | mapped mapping sources names =>
      rw [segments, Mapping.excerpt, locals, List.map_cons, Segment.moved_start,
        mapping.extract_countBefore inOrder, List.filter_filter, List.map_map]
      congr 2
      apply List.filter_congr
      intro segment _member
      rw [Bool.eq_iff_iff]
      simp only [Bool.and_eq_true, decide_eq_true_eq]
      constructor
      · intro inside
        obtain ⟨different, fromStart, before⟩ := inside
        exact ⟨Position.lt_of_le_of_ne fromStart (Ne.symm different), before⟩
      · intro inside
        obtain ⟨behind, before⟩ := inside
        refine ⟨?_, Position.le_of_lt behind, before⟩
        intro same
        rw [same] at behind
        exact Position.lt_irrefl _ behind

theorem mem_furtherLines {start stop place : Position} :
    place ∈ furtherLines start stop ↔
      start.line < place.line ∧ place.column = 0 ∧ place < stop := by
  rw [furtherLines, List.mem_filter, List.mem_map, decide_eq_true_eq]
  constructor
  · intro listed
    obtain ⟨⟨count, inRange, isPlace⟩, before⟩ := listed
    rw [← isPlace] at before ⊢
    exact ⟨by simp only; omega, rfl, before⟩
  · intro inside
    obtain ⟨further, atStart, before⟩ := inside
    refine ⟨⟨place.line - (start.line + 1), ?_, ?_⟩, before⟩
    · rw [List.mem_range]
      rw [Position.lt_iff] at before
      omega
    · apply Position.ext
      · simp only
        omega
      · exact atStart.symm

theorem furtherLines_pairwise (start stop : Position) :
    (furtherLines start stop).Pairwise fun earlier later => earlier < later := by
  apply List.Pairwise.filter
  apply List.Pairwise.map _ _ List.pairwise_lt_range
  intro earlier later before
  rw [Position.lt_iff]
  exact Or.inl (by simp only; omega)

/-- A copy begins with a segment at its start, and all others lie inside the range. -/
theorem Links.locals_eq_cons (links : Links) (start stop : Position) :
    ∃ head rest, links.locals start stop = head :: rest ∧ head.position = start ∧
      ∀ segment ∈ rest, start < segment.position ∧ segment.position < stop := by
  cases links with
  | unknown => exact ⟨_, _, rfl, rfl, fun segment impossible => by cases impossible⟩
  | own source =>
      refine ⟨_, _, rfl, rfl, ?_⟩
      intro segment member
      obtain ⟨place, further, isSegment⟩ := List.mem_map.mp member
      obtain ⟨behind, _, before⟩ := mem_furtherLines.mp further
      rw [← isSegment]
      exact ⟨Or.inl behind, before⟩
  | mapped mapping sources names =>
      refine ⟨_, _, rfl, rfl, ?_⟩
      intro segment member
      obtain ⟨original, inRange, isSegment⟩ := List.mem_map.mp member
      rw [← isSegment]
      exact of_decide_eq_true (List.mem_filter.mp inRange).2

theorem Links.locals_ordered (links : Links) (start stop : Position) :
    Segment.Ordered (links.locals start stop) := by
  obtain ⟨head, rest, whole, atStart, inside⟩ := links.locals_eq_cons start stop
  rw [whole]
  refine List.pairwise_cons.mpr ⟨?_, ?_⟩
  · intro segment member
    rw [atStart]
    exact (inside segment member).1
  · cases links with
    | unknown =>
        rw [← (List.cons.inj whole).2]
        exact List.Pairwise.nil
    | own source =>
        rw [← (List.cons.inj whole).2]
        exact List.Pairwise.map _ (fun _ _ before => before) (furtherLines_pairwise start stop)
    | mapped mapping sources names =>
        rw [← (List.cons.inj whole).2]
        exact List.Pairwise.map _ (fun _ _ before => before)
          (List.Pairwise.filter _ mapping.pairwise_lt)

theorem Links.start_le_of_mem_locals {links : Links} {start stop : Position} {segment : Segment}
    (member : segment ∈ links.locals start stop) : start ≤ segment.position := by
  obtain ⟨head, rest, whole, atStart, inside⟩ := links.locals_eq_cons start stop
  rw [whole] at member
  rcases List.mem_cons.mp member with isHead | inRest
  · rw [isHead, atStart]
    exact Position.le_refl _
  · exact Position.le_of_lt (inside segment inRest).1

theorem Links.lt_stop_of_mem_locals {links : Links} {start stop : Position}
    (inOrder : start < stop) {segment : Segment} (member : segment ∈ links.locals start stop) :
    segment.position < stop := by
  obtain ⟨head, rest, whole, atStart, inside⟩ := links.locals_eq_cons start stop
  rw [whole] at member
  rcases List.mem_cons.mp member with isHead | inRest
  · rw [isHead, atStart]
    exact inOrder
  · exact (inside segment inRest).2

section Locals

variable {sources : Array SourceRecord} {names : Array String} {links : Links}
  {child : TracedText}

theorem Links.Fits.locals_inTables (fits : links.Fits sources names child.provenance)
    (start stop : Position) :
    Segment.InTables sources.size names.size (links.locals start stop) := by
  intro segment member location isLocation
  generalize child.provenance = provenance at fits
  cases fits with
  | unknown =>
      rw [List.mem_singleton.mp member] at isLocation
      cases isLocation
  | @own source identity known =>
      obtain ⟨entry, found, _⟩ := Option.map_eq_some_iff.mp known
      have within := (Array.getElem?_eq_some_iff.mp found).1
      rcases List.mem_cons.mp member with isHead | inRest
      · rw [isHead] at isLocation
        cases isLocation
        exact ⟨within, fun name impossible => by cases impossible⟩
      · obtain ⟨place, _, isSegment⟩ := List.mem_map.mp inRest
        rw [← isSegment] at isLocation
        cases isLocation
        exact ⟨within, fun name impossible => by cases impossible⟩
  | @mapped mapping sourceIndices nameIndices sourcesKnown namesKnown =>
      have linked : ∀ original relinked : Location,
          original.relink sourceIndices nameIndices = some relinked →
            relinked.source < sources.size ∧
              ∀ name, relinked.name = some name → name < names.size := by
        intro original relinked isRelinked
        rcases relink_cases (.mapped sourcesKnown namesKnown) original with
          ⟨_, unlinked⟩ | ⟨_, _, source, name, _, isCommon, _, isLinked, _, namesWithin⟩
        · rw [unlinked] at isRelinked
          cases isRelinked
        · rw [isLinked, Option.some.injEq] at isRelinked
          rw [← isRelinked]
          exact ⟨(Array.getElem?_eq_some_iff.mp isCommon).1, namesWithin⟩
      rcases List.mem_cons.mp member with isHead | inRest
      · rw [isHead] at isLocation
        change mapping.headOrigin sourceIndices nameIndices start = some location at isLocation
        unfold Mapping.headOrigin at isLocation
        obtain ⟨covering, _, isLocation⟩ := Option.bind_eq_some_iff.mp isLocation
        obtain ⟨relinked, isRelinked, isLocation⟩ := Option.bind_eq_some_iff.mp isLocation
        obtain ⟨original, _, isRelinked⟩ := Option.bind_eq_some_iff.mp isRelinked
        have bounds := linked original relinked isRelinked
        split at isLocation
        · cases isLocation
          exact bounds
        · cases isLocation
          exact ⟨bounds.1, fun name impossible => by cases impossible⟩
      · obtain ⟨original, _, isSegment⟩ := List.mem_map.mp inRest
        rw [← isSegment] at isLocation
        obtain ⟨found, _, isRelinked⟩ := Option.bind_eq_some_iff.mp isLocation
        exact linked found location isRelinked

private theorem read_traced {source : Nat} {identity : Option String}
    (known : (sources[source]?).map SourceRecord.identity = some identity)
    (place position : Position) (line column : Nat) :
    Segment.read sources names place (Segment.traced position source line column) =
      some
        { trace := ⟨identity, line, column + (place.column - position.column)⟩
          standing := if position = place then some none else none } := by
  obtain ⟨entry, found, isIdentity⟩ := Option.map_eq_some_iff.mp known
  apply (Segment.read_eq_some_iff sources names).mpr
  exact ⟨_, entry, rfl, found, by rw [isIdentity]; rfl⟩

private theorem reading?_locals_own {source : Nat} {identity : String}
    (known : (sources[source]?).map SourceRecord.identity = some (some identity))
    {start stop place : Position} (fromStart : start ≤ place) (before : place < stop) :
    Segment.reading? sources names ((Links.own source).locals start stop) place =
      some (Mapping.Reading.copiedFrom start place
        { trace := ⟨some identity, place.line, place.column⟩
          standing := if place.column = 0 then some none else none }) := by
  have ordered := (Links.own source).locals_ordered start stop
  have lines := fromStart
  rw [Position.le_iff] at lines
  by_cases onLine : start.line = place.line
  · have covering : Segment.lastCovering place ((Links.own source).locals start stop) =
        some (Segment.traced start source start.line start.column) := by
      apply ordered.lastCovering_eq_some_iff.mpr
      refine ⟨List.mem_cons_self, Segment.covers_of_le onLine fromStart, ?_⟩
      intro other member covered
      rcases List.mem_cons.mp member with isHead | inRest
      · rw [isHead]
        exact Position.le_refl _
      · obtain ⟨further, isFurther, isOther⟩ := List.mem_map.mp inRest
        have behind := (mem_furtherLines.mp isFurther).1
        have sameLine := (Segment.covers_iff.mp covered).1
        rw [← isOther] at sameLine
        simp only [Segment.traced] at sameLine
        omega
    have column : start.column + (place.column - start.column) = place.column := by omega
    rw [Segment.reading?, covering, Option.bind_some, read_traced known, onLine, column,
      Mapping.Reading.copiedFrom]
    by_cases atStart : start = place
    · rw [if_pos atStart, if_pos atStart.symm]
      simp only
      split <;> rfl
    · have notFirst : place.column ≠ 0 := by
        intro first
        exact atStart (Position.ext onLine (by omega))
      rw [if_neg atStart, if_neg (Ne.symm atStart), if_neg notFirst]
  · have further : (⟨place.line, 0⟩ : Position) ∈ furtherLines start stop := by
      rw [mem_furtherLines]
      refine ⟨by simp only; omega, rfl, Position.lt_of_le_of_lt ?_ before⟩
      rw [Position.le_iff]
      exact Or.inr ⟨rfl, Nat.zero_le _⟩
    have covering : Segment.lastCovering place ((Links.own source).locals start stop) =
        some (Segment.traced ⟨place.line, 0⟩ source place.line 0) := by
      apply ordered.lastCovering_eq_some_iff.mpr
      refine ⟨List.mem_cons_of_mem _ (List.mem_map.mpr ⟨_, further, rfl⟩),
        Segment.covers_iff.mpr ⟨rfl, Nat.zero_le _⟩, ?_⟩
      intro other member covered
      have sameLine := (Segment.covers_iff.mp covered).1
      rcases List.mem_cons.mp member with isHead | inRest
      · rw [isHead] at sameLine
        exact absurd sameLine onLine
      · obtain ⟨otherPlace, isFurther, isOther⟩ := List.mem_map.mp inRest
        have atZero := (mem_furtherLines.mp isFurther).2.1
        rw [← isOther] at sameLine ⊢
        rw [Position.le_iff]
        simp only [Segment.traced] at sameLine ⊢
        omega
    have elsewhere : place ≠ start := fun same => onLine (by rw [same])
    have here : (⟨place.line, 0⟩ : Position) = place ↔ place.column = 0 := by
      constructor
      · intro same
        rw [← same]
      · exact fun first => Position.ext rfl first.symm
    rw [Segment.reading?, covering, Option.bind_some, read_traced known,
      Mapping.Reading.copiedFrom, if_neg elsewhere]
    simp only [here, Nat.zero_add, Nat.sub_zero]

private theorem reading?_locals_mapped {mapping : Mapping} {sourceIndices nameIndices : Array Nat}
    (fits : Links.Fits sources names (.mapped mapping sourceIndices nameIndices) (.mapped mapping))
    {start stop place : Position} (fromStart : start ≤ place) (before : place < stop) :
    Segment.reading? sources names
        ((Links.mapped mapping sourceIndices nameIndices).locals start stop) place =
      (mapping.reading? place).map (Mapping.Reading.copiedFrom start place) := by
  rw [Segment.reading?, Links.locals, Segment.lastCovering_cons, Segment.lastCovering_relinked,
    Mapping.reading?, Segment.reading?,
    Segment.Ordered.lastCovering_eq_or mapping.ordered fromStart before]
  cases found : Segment.lastCovering place (mapping.segments.toList.filter fun segment =>
      decide (start < segment.position ∧ segment.position < stop)) with
  | some segment =>
      obtain ⟨member, covered⟩ := Segment.mem_of_lastCovering found
      have behind := (of_decide_eq_true (List.mem_filter.mp member).2).1
      have elsewhere : place ≠ start := by
        intro same
        have reached := Position.lt_of_lt_of_le behind (Segment.le_of_covers covered)
        rw [same] at reached
        exact Position.lt_irrefl _ reached
      rw [Mapping.Reading.copiedFrom_of_ne elsewhere, Option.map_id]
      exact read_relinked fits place segment
  | none =>
      rw [Option.map_none, Option.none_or, Option.none_or]
      by_cases onLine : start.line = place.line
      · have headCovers : Segment.covers place
            ⟨start, mapping.headOrigin sourceIndices nameIndices start⟩ = true :=
          Segment.covers_of_le onLine fromStart
        rw [headCovers, if_pos rfl, if_pos onLine]
        cases atStart : Segment.lastCovering start mapping.segments.toList with
        | none =>
            rw [Mapping.headOrigin, mapping.covering_eq, atStart]
            rfl
        | some segment => exact read_head fits atStart fromStart onLine
      · have notCovers : Segment.covers place
            ⟨start, mapping.headOrigin sourceIndices nameIndices start⟩ = false :=
          decide_eq_false fun covered => onLine covered.1
        rw [notCovers, if_neg onLine]
        rfl

/-- Of the places in the range, a copy says what the child says. -/
theorem Links.Fits.reading?_locals (fits : links.Fits sources names child.provenance)
    {start stop place : Position} (fromStart : start ≤ place) (before : place < stop) :
    Segment.reading? sources names (links.locals start stop) place =
      (child.reading? place).map (Mapping.Reading.copiedFrom start place) := by
  unfold TracedText.reading?
  generalize child.provenance = provenance at fits
  cases fits with
  | unknown =>
      rw [Segment.reading?_eq_tracing, Segment.tracing, Links.locals, Segment.lastCovering_cons]
      cases Segment.covers place (Segment.marker start) <;> rfl
  | own known => exact reading?_locals_own known fromStart before
  | mapped sourcesKnown namesKnown =>
      exact reading?_locals_mapped (.mapped sourcesKnown namesKnown) fromStart before

end Locals

end SourceWeave
