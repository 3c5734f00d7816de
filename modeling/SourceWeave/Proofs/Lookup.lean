import SourceWeave.Mapping
import SourceWeave.Proofs.Places
import SourceWeave.Proofs.Search

/-!
Looking up as reading a list. A mapping says of a place what the last segment says
that starts on the place's line at or before the place; searching by halves finds
that segment because segments are in order.
-/

set_option autoImplicit false

namespace SourceWeave

namespace Segment

def covers (place : Position) (segment : Segment) : Bool :=
  decide (segment.position.line = place.line ∧ segment.position.column ≤ place.column)

def lastCovering (place : Position) (segments : List Segment) : Option Segment :=
  (segments.filter (covers place)).getLast?

/-- A marker is as good as no segment to a reader. -/
def unlessMarker (found : Option Segment) : Option Segment :=
  found.filter fun segment => !segment.isMarker

def tracing (place : Position) (segments : List Segment) : Option Segment :=
  unlessMarker (lastCovering place segments)

theorem unlessMarker_marker {segment : Segment} (marker : segment.isMarker = true) :
    unlessMarker (some segment) = none := by
  simp [unlessMarker, marker]

theorem unlessMarker_traced {segment : Segment} (traced : segment.isMarker = false) :
    unlessMarker (some segment) = some segment := by
  simp [unlessMarker, traced]

theorem covers_iff {place : Position} {segment : Segment} :
    covers place segment = true ↔
      segment.position.line = place.line ∧ segment.position.column ≤ place.column :=
  decide_eq_true_iff

theorem le_of_covers {place : Position} {segment : Segment}
    (covered : covers place segment = true) : segment.position ≤ place := by
  rw [Position.le_iff]
  exact Or.inr (covers_iff.mp covered)

theorem not_covers_of_lt {place : Position} {segment : Segment} (later : place < segment.position) :
    covers place segment = false := by
  cases covered : covers place segment with
  | false => rfl
  | true => exact absurd later (Position.not_lt.mpr (le_of_covers covered))

theorem covers_of_le {place : Position} {segment : Segment}
    (sameLine : segment.position.line = place.line) (before : segment.position ≤ place) :
    covers place segment = true := by
  rw [Position.le_iff] at before
  exact covers_iff.mpr ⟨sameLine, by omega⟩

theorem lastCovering_append (place : Position) (front back : List Segment) :
    lastCovering place (front ++ back) =
      (lastCovering place back).or (lastCovering place front) := by
  rw [lastCovering, List.filter_append, List.getLast?_append]
  rfl

theorem lastCovering_cons (place : Position) (segment : Segment) (rest : List Segment) :
    lastCovering place (segment :: rest) =
      (lastCovering place rest).or (if covers place segment then some segment else none) := by
  rw [← List.singleton_append, lastCovering_append]
  congr 1
  cases covered : covers place segment with
  | true => simp [lastCovering, covered]
  | false => simp [lastCovering, covered]

theorem lastCovering_cons_of_covers {place : Position} {segment : Segment}
    (covered : covers place segment = true) (rest : List Segment) (held : Option Segment) :
    (lastCovering place (segment :: rest)).or held =
      (lastCovering place rest).or (some segment) := by
  rw [lastCovering_cons, covered, if_pos rfl]
  cases lastCovering place rest <;> rfl

theorem lastCovering_cons_of_not {place : Position} {segment : Segment}
    (uncovered : covers place segment = false) (rest : List Segment) :
    lastCovering place (segment :: rest) = lastCovering place rest := by
  rw [lastCovering_cons, uncovered]
  exact Option.or_none

theorem lastCovering_eq_none {place : Position} {segments : List Segment}
    (none : ∀ segment ∈ segments, covers place segment = false) :
    lastCovering place segments = .none := by
  have empty : segments.filter (covers place) = [] := by
    apply List.filter_eq_nil_iff.mpr
    intro segment member covered
    rw [none segment member] at covered
    cases covered
  rw [lastCovering, empty]
  rfl

theorem lastCovering_of_later {place : Position} {segments : List Segment}
    (later : ∀ segment ∈ segments, place < segment.position) :
    lastCovering place segments = none :=
  lastCovering_eq_none fun segment member => not_covers_of_lt (later segment member)

theorem mem_of_lastCovering {place : Position} {segments : List Segment} {segment : Segment}
    (found : lastCovering place segments = some segment) :
    segment ∈ segments ∧ covers place segment = true :=
  List.mem_filter.mp (List.mem_of_getLast? found)

theorem lastCovering_map (place : Position) (change : Segment → Segment)
    (inPlace : ∀ segment, (change segment).position = segment.position)
    (segments : List Segment) :
    lastCovering place (segments.map change) = (lastCovering place segments).map change := by
  have same : segments.filter (covers place ∘ change) = segments.filter (covers place) := by
    apply List.filter_congr
    intro segment _member
    rw [Function.comp_apply, covers, covers, inPlace]
  rw [lastCovering, List.filter_map, same, List.getLast?_map, lastCovering]

theorem lastCovering_filter {place : Position} {keep : Segment → Bool} {segments : List Segment}
    (kept : ∀ segment ∈ segments, covers place segment = true → keep segment = true) :
    lastCovering place (segments.filter keep) = lastCovering place segments := by
  rw [lastCovering, lastCovering, List.filter_filter]
  congr 1
  apply List.filter_congr
  intro segment member
  rw [Bool.and_eq_left_iff_imp]
  exact kept segment member

theorem lastCovering_eq_some {place : Position} {segments : List Segment} {segment : Segment}
    (inOrder : segments.Pairwise fun earlier later => earlier.position ≤ later.position)
    (member : segment ∈ segments) (covered : covers place segment = true) :
    ∃ last, lastCovering place segments = some last ∧ segment.position ≤ last.position := by
  have kept : segment ∈ segments.filter (covers place) := List.mem_filter.mpr ⟨member, covered⟩
  obtain ⟨front, last, whole⟩ :=
    (List.eq_nil_or_concat (segments.filter (covers place))).resolve_left (List.ne_nil_of_mem kept)
  refine ⟨last, ?_, ?_⟩
  · rw [lastCovering, whole, List.concat_eq_append, List.getLast?_concat]
  · have filtered := inOrder.sublist (List.filter_sublist (p := covers place))
    rw [whole, List.concat_eq_append] at filtered kept
    rcases List.mem_append.mp kept with inFront | isLast
    · exact (List.pairwise_append.mp filtered).2.2 segment inFront last List.mem_cons_self
    · rw [List.mem_singleton.mp isLast]
      exact Position.le_refl _

theorem tracing_append_marker (place : Position) (segments : List Segment) :
    tracing place (segments ++ [marker place]) = none := by
  have covered : covers place (marker place) = true := covers_iff.mpr ⟨rfl, Nat.le_refl _⟩
  rw [tracing, lastCovering_append, lastCovering_cons, covered]
  rfl

/-- If nothing is traced where the last segments may stand, nothing is traced behind. -/
theorem tracing_eq_none_of_le {stop place : Position} {segments : List Segment}
    (toStop : ∀ segment ∈ segments, segment.position ≤ stop)
    (quiet : tracing stop segments = none) (behind : stop ≤ place) :
    tracing place segments = none := by
  rw [Position.le_iff] at behind
  by_cases sameLine : place.line = stop.line
  · have alike : segments.filter (covers place) = segments.filter (covers stop) := by
      apply List.filter_congr
      intro segment member
      have before := toStop segment member
      rw [Position.le_iff] at before
      rw [Bool.eq_iff_iff, covers_iff, covers_iff]
      omega
    rw [tracing, lastCovering, alike]
    exact quiet
  · have noneCovers : lastCovering place segments = none := by
      apply lastCovering_eq_none
      intro segment member
      apply decide_eq_false
      have before := toStop segment member
      rw [Position.le_iff] at before
      omega
    rw [tracing, noneCovers]
    rfl

end Segment

namespace Mapping

variable (mapping : Mapping)

theorem pairwise_lt :
    mapping.segments.toList.Pairwise fun earlier later => earlier.position < later.position :=
  mapping.ordered

theorem failsOn_of_downward {passes : Segment → Bool}
    (downward : ∀ earlier later : Segment, earlier.position < later.position →
      passes later = true → passes earlier = true) :
    FailsOn passes mapping.segments.toList :=
  List.Pairwise.imp (fun {earlier later} before => downward earlier later before) mapping.ordered

theorem failsOn_line (passes : Nat → Bool)
    (downward : ∀ earlier later, earlier ≤ later → passes later = true → passes earlier = true) :
    FailsOn (fun segment : Segment => passes segment.position.line) mapping.segments.toList := by
  apply failsOn_of_downward
  intro earlier later before passed
  rw [Position.lt_iff] at before
  exact downward _ _ (by omega) passed

theorem failsOn_line_lt (line : Nat) :
    FailsOn (fun segment : Segment => decide (segment.position.line < line))
      mapping.segments.toList := by
  apply mapping.failsOn_line fun other => decide (other < line)
  intro earlier later inOrder passed
  exact decide_eq_true (Nat.lt_of_le_of_lt inOrder (of_decide_eq_true passed))

theorem failsOn_line_le (line : Nat) :
    FailsOn (fun segment : Segment => decide (segment.position.line ≤ line))
      mapping.segments.toList := by
  apply mapping.failsOn_line fun other => decide (other ≤ line)
  intro earlier later inOrder passed
  exact decide_eq_true (Nat.le_trans inOrder (of_decide_eq_true passed))

theorem failsOn_before (place : Position) :
    FailsOn (fun segment : Segment => decide (segment.position < place))
      mapping.segments.toList := by
  apply failsOn_of_downward
  intro earlier later before passed
  exact decide_eq_true (Position.lt_trans before (of_decide_eq_true passed))

theorem lineSegments_eq (line : Nat) :
    (mapping.lineSegments line).toList =
      mapping.segments.toList.filter fun segment => decide (segment.position.line = line) := by
  rw [lineSegments,
    extract_partitionPoint (mapping.failsOn_line_lt line) (mapping.failsOn_line_le line)]
  · apply List.filter_congr
    intro segment _member
    rw [Bool.eq_iff_iff]
    simp only [Bool.and_eq_true, Bool.not_eq_true', decide_eq_true_eq, decide_eq_false_iff_not]
    omega
  · intro segment _member passed
    simp only [decide_eq_true_eq] at passed ⊢
    omega

theorem covering_eq (place : Position) :
    mapping.covering place = Segment.lastCovering place mapping.segments.toList := by
  have failsOn : FailsOn (fun segment : Segment => decide (segment.position.column ≤ place.column))
      (mapping.lineSegments place.line).toList := by
    rw [lineSegments_eq]
    have onLine := mapping.pairwise_lt.sublist (List.filter_sublist (p := fun segment : Segment =>
      decide (segment.position.line = place.line)))
    refine List.Pairwise.imp_of_mem ?_ onLine
    intro earlier later inEarlier inLater before passed
    have sameEarlier := of_decide_eq_true (List.mem_filter.mp inEarlier).2
    have sameLater := of_decide_eq_true (List.mem_filter.mp inLater).2
    rw [Position.lt_iff] at before
    simp only [decide_eq_true_eq] at passed ⊢
    omega
  have covered : (mapping.lineSegments place.line).toList.filter
      (fun segment => decide (segment.position.column ≤ place.column)) =
        mapping.segments.toList.filter (Segment.covers place) := by
    rw [lineSegments_eq, List.filter_filter]
    apply List.filter_congr
    intro segment _member
    rw [Segment.covers, Bool.eq_iff_iff]
    simp only [Bool.and_eq_true, decide_eq_true_eq]
    exact And.comm
  have front := failsOn.filter_append
  rw [covering, partitionPoint_eq_length failsOn, Segment.lastCovering, covered]
  rw [covered] at front
  cases count : (mapping.segments.toList.filter (Segment.covers place)).length with
  | zero =>
      rw [List.length_eq_zero_iff.mp count]
      rfl
  | succ count =>
      simp only
      rw [← Array.getElem?_toList, ← front, List.getElem?_append_left (by omega),
        List.getLast?_eq_getElem?]
      congr 1
      omega

theorem countBefore_eq (place : Position) :
    mapping.countBefore place =
      (mapping.segments.toList.filter fun segment => decide (segment.position < place)).length :=
  partitionPoint_eq_length (mapping.failsOn_before place)

theorem take_countBefore (place : Position) :
    mapping.segments.toList.take (mapping.countBefore place) =
      mapping.segments.toList.filter fun segment => decide (segment.position < place) := by
  rw [countBefore_eq]
  exact (mapping.failsOn_before place).take_length

theorem countBefore_le_countBefore {start stop : Position} (inOrder : start ≤ stop) :
    mapping.countBefore start ≤ mapping.countBefore stop := by
  apply partitionPoint_le_partitionPoint (mapping.failsOn_before start)
    (mapping.failsOn_before stop)
  intro segment _member passed
  exact decide_eq_true (Position.lt_of_lt_of_le (of_decide_eq_true passed) inOrder)

theorem extract_countBefore {start stop : Position} (inOrder : start ≤ stop) :
    (mapping.segments.extract (mapping.countBefore start) (mapping.countBefore stop)).toList =
      mapping.segments.toList.filter fun segment =>
        decide (start ≤ segment.position ∧ segment.position < stop) := by
  rw [countBefore, countBefore,
    extract_partitionPoint (mapping.failsOn_before start) (mapping.failsOn_before stop)]
  · apply List.filter_congr
    intro segment _member
    rw [Bool.eq_iff_iff]
    simp only [Bool.and_eq_true, Bool.not_eq_true', decide_eq_true_eq, decide_eq_false_iff_not,
      Position.not_lt]
    exact And.comm
  · intro segment _member passed
    exact decide_eq_true (Position.lt_of_lt_of_le (of_decide_eq_true passed) inOrder)

end Mapping

end SourceWeave
