import SourceWeave.Proofs.Pruning

/-!
Clean-up of any segments. Of segments that share a place the last one given is left, in whatever
order they come; and of segments in order those markers are dropped that nothing depends on. Both
are told beside the passes that do it: one that writes over the last segment kept, and one that
remembers a line and whether a traced segment has been kept last on it.
-/

set_option autoImplicit false

namespace SourceWeave

namespace Segment

def isAt (place : Position) (segment : Segment) : Bool :=
  decide (segment.position = place)

theorem isAt_iff {place : Position} {segment : Segment} :
    isAt place segment = true ↔ segment.position = place :=
  decide_eq_true_iff

def inOrder (left right : Segment) : Bool :=
  decide (left.position ≤ right.position)

theorem inOrder_iff {left right : Segment} :
    inOrder left right = true ↔ left.position ≤ right.position :=
  decide_eq_true_iff

theorem stableSort_sorted (segments : List Segment) : Sorted (stableSort inOrder segments) := by
  have total (left right : Segment) : inOrder left right = true ∨ inOrder right left = true := by
    rw [inOrder_iff, inOrder_iff]
    by_cases before : left.position ≤ right.position
    · exact Or.inl before
    · exact Or.inr (Position.le_of_lt (Position.not_le.mp before))
  have pairs := stableSort_pairwise total (fun {first second third} before after =>
    inOrder_iff.mpr (Position.le_trans (inOrder_iff.mp before) (inOrder_iff.mp after))) segments
  exact List.Pairwise.imp inOrder_iff.mp pairs

theorem filter_isAt_stableSort (place : Position) (segments : List Segment) :
    (stableSort inOrder segments).filter (isAt place) = segments.filter (isAt place) := by
  apply filter_stableSort
  intro left right leftAt rightAt
  rw [inOrder_iff, isAt_iff.mp leftAt, isAt_iff.mp rightAt]
  exact Position.le_refl place

theorem filter_isAt_keepLast {segments : List Segment} (sorted : Sorted segments)
    (place : Position) :
    (keepLast segments).filter (isAt place) =
      (segments.filter (isAt place)).getLast?.toList := by
  fun_induction keepLast segments with
  | case1 earlier later rest same ih =>
      rw [ih (List.pairwise_cons.mp sorted).2]
      have alike : isAt place earlier = isAt place later := by rw [isAt, isAt, same]
      by_cases here : isAt place later = true
      · rw [List.filter_cons_of_pos (alike.trans here), List.filter_cons_of_pos here,
          List.getLast?_cons_cons]
      · have elsewhere : ¬ isAt place earlier = true := by rwa [alike]
        rw [List.filter_cons_of_neg elsewhere]
  | case2 earlier later rest different ih =>
      obtain ⟨first, tail⟩ := List.pairwise_cons.mp sorted
      rw [List.filter_cons, List.filter_cons, ih tail]
      split
      · rename_i here
        have none : (later :: rest).filter (isAt place) = [] := by
          apply List.filter_eq_nil_iff.mpr
          intro segment member isHere
          have before : earlier.position < later.position :=
            Position.lt_of_le_of_ne (first later List.mem_cons_self) different
          have behind : later.position ≤ segment.position := by
            rcases List.mem_cons.mp member with isLater | inRest
            · exact isLater ▸ Position.le_refl _
            · exact (List.pairwise_cons.mp tail).1 segment inRest
          have past := Position.lt_of_lt_of_le before behind
          rw [isAt_iff.mp here, isAt_iff.mp isHere] at past
          exact Position.lt_irrefl place past
        rw [none]
        rfl
      · rfl
  | case3 segments short =>
      cases segments with
      | nil => rfl
      | cons single rest =>
          cases rest with
          | nil =>
              cases here : isAt place single with
              | true => simp [here]
              | false => simp [here]
          | cons next others => exact absurd rfl (short single next others)

/-- Puts a segment behind those kept, or over the last of them if that stands at its place. -/
def overwrite (kept : List Segment) (segment : Segment) : List Segment :=
  match kept.getLast? with
  | some last =>
      if last.position = segment.position then kept.dropLast ++ [segment] else kept ++ [segment]
  | none => kept ++ [segment]

theorem overwrite_concat (kept : List Segment) (last segment : Segment) :
    overwrite (kept ++ [last]) segment =
      if last.position = segment.position then kept ++ [segment]
      else kept ++ [last] ++ [segment] := by
  rw [overwrite, List.getLast?_concat, List.dropLast_concat]

theorem foldl_overwrite_concat (kept : List Segment) (last : Segment) (segments : List Segment) :
    segments.foldl overwrite (kept ++ [last]) = kept ++ keepLast (last :: segments) := by
  induction segments generalizing kept last with
  | nil => rfl
  | cons segment rest ih =>
      rw [List.foldl_cons, overwrite_concat, keepLast]
      split
      · exact ih kept segment
      · rw [ih (kept ++ [last]) segment, List.append_assoc, List.singleton_append]

theorem foldl_overwrite (segments : List Segment) :
    segments.foldl overwrite [] = keepLast segments := by
  cases segments with
  | nil => rfl
  | cons segment rest => exact foldl_overwrite_concat [] segment rest

/-- Whatever the order in which segments are given, one is left for each of their places: the last
one given there. They come in the order of their places, and are those that a pass over the sorted
segments leaves which writes over the last segment kept if the next one stands where it does. -/
theorem latest_last_given (segments : List Segment) :
    Ordered (latest segments) ∧
      (∀ place, (latest segments).filter (isAt place) =
        (segments.filter (isAt place)).getLast?.toList) ∧
      (stableSort inOrder segments).foldl overwrite [] = latest segments := by
  refine ⟨keepLast_ordered (stableSort_sorted segments), ?_, foldl_overwrite _⟩
  intro place
  have left := filter_isAt_keepLast (stableSort_sorted segments) place
  rwa [filter_isAt_stableSort] at left

example :
    latest [.marker ⟨2, 0⟩, .traced ⟨1, 3⟩ 0 1 0, .marker ⟨1, 3⟩, .traced ⟨1, 3⟩ 1 4 0] =
      [.traced ⟨1, 3⟩ 1 4 0, .marker ⟨2, 0⟩] := by decide

/-! ### Markers -/

/-- What pruning has gone through: the line that it has come to, whether a traced segment has been
kept last on it, and all that has been kept. -/
structure Sweep where
  line : Nat := 0
  traced : Bool := false
  kept : List Segment := []

namespace Sweep

def enter (sweep : Sweep) (line : Nat) : Sweep :=
  if line = sweep.line then sweep else { sweep with line, traced := false }

def take (stop : Position) (sweep : Sweep) (segment : Segment) : Sweep :=
  let entered := sweep.enter segment.position.line
  if segment.isMarker then
    if entered.traced = false ∨ stop ≤ segment.position then entered
    else { entered with traced := false, kept := entered.kept ++ [segment] }
  else { entered with traced := true, kept := entered.kept ++ [segment] }

def covered (sweep : Sweep) : Option Nat :=
  if sweep.traced then some sweep.line else none

variable (sweep : Sweep) (line : Nat)

theorem enter_line : (sweep.enter line).line = line := by
  unfold enter
  split
  · rename_i same
    exact same.symm
  · rfl

theorem enter_kept : (sweep.enter line).kept = sweep.kept := by
  unfold enter
  split <;> rfl

theorem enter_traced_iff : (sweep.enter line).traced = true ↔ sweep.covered = some line := by
  unfold enter covered
  cases traced : sweep.traced with
  | true =>
      by_cases same : line = sweep.line
      · simp [same, traced]
      · simp [same, Ne.symm same]
  | false =>
      by_cases same : line = sweep.line
      · simp [same, traced]
      · simp [same]

/-- What is kept behind a sweep is what pruning leaves behind the line that the sweep knows of. -/
theorem kept_foldl (stop : Position) (segments : List Segment) :
    (segments.foldl (take stop) sweep).kept =
      sweep.kept ++ pruneFrom stop sweep.covered segments := by
  induction segments generalizing sweep with
  | nil => exact (List.append_nil _).symm
  | cons segment rest ih =>
      rw [List.foldl_cons, ih, take]
      cases kind : segment.isMarker with
      | false =>
          rw [pruneFrom_traced stop _ rest kind]
          simp [covered, enter_line, enter_kept]
      | true =>
          by_cases isCovered : sweep.covered = some segment.position.line
          · have traced := (enter_traced_iff sweep _).mpr isCovered
            by_cases before : segment.position < stop
            · rw [isCovered, pruneFrom_marker rest kind before]
              simp [covered, traced, Position.not_le.mpr before, enter_kept]
            · rw [isCovered, pruneFrom_past rest kind before]
              simp [covered, traced, Position.not_lt.mp before, enter_line, enter_kept]
          · have silent : (sweep.enter segment.position.line).traced = false := by
              rw [← Bool.not_eq_true, enter_traced_iff]
              exact isCovered
            rw [pruneFrom_uncovered stop rest kind isCovered]
            simp [covered, silent, enter_kept]

end Sweep

theorem mem_pruneFrom_of_traced {stop : Position} {covered : Option Nat} {segments : List Segment}
    {segment : Segment} (member : segment ∈ segments) (traced : segment.isMarker = false) :
    segment ∈ pruneFrom stop covered segments := by
  have notMarker {other : Segment} (marker : ¬ (!other.isMarker) = true) : segment ≠ other := by
    intro same
    rw [← same, traced] at marker
    exact marker rfl
  fun_induction pruneFrom stop covered segments with
  | case1 => exact member
  | case2 covered first rest line _traced ih =>
      rcases List.mem_cons.mp member with isFirst | later
      · exact isFirst ▸ List.mem_cons_self
      · exact List.mem_cons_of_mem first (ih later)
  | case3 covered first rest line marker _uncovered ih =>
      exact ih (List.mem_of_ne_of_mem (notMarker marker) member)
  | case4 covered first rest line marker _covered _before ih =>
      exact List.mem_cons_of_mem first (ih (List.mem_of_ne_of_mem (notMarker marker) member))
  | case5 covered first rest line marker _covered _past ih =>
      exact ih (List.mem_of_ne_of_mem (notMarker marker) member)

theorem pruneFrom_eq_self {stop : Position} {covered : Option Nat} {segments : List Segment}
    (pruned : Pruned covered segments)
    (before : ∀ segment ∈ segments, segment.isMarker = true → segment.position < stop) :
    pruneFrom stop covered segments = segments := by
  induction segments generalizing covered with
  | nil => rfl
  | cons segment rest ih =>
      have restBefore (other : Segment) (inRest : other ∈ rest) (marker : other.isMarker = true) :
          other.position < stop := before other (List.mem_cons_of_mem segment inRest) marker
      obtain ⟨follows, restPruned⟩ := pruned
      cases kind : segment.isMarker with
      | false =>
          rw [kind, if_neg Bool.false_ne_true] at restPruned
          rw [pruneFrom_traced stop covered rest kind, ih restPruned restBefore]
      | true =>
          rw [kind, if_pos rfl] at restPruned
          rw [follows kind, pruneFrom_marker rest kind (before segment List.mem_cons_self kind),
            ih restPruned restBefore]

theorem bind_origin_unlessMarker (found : Option Segment) :
    (unlessMarker found).bind origin = found.bind origin := by
  cases found with
  | none => rfl
  | some segment =>
      cases kind : segment.isMarker with
      | false => rw [unlessMarker_traced kind]
      | true =>
          rw [unlessMarker_marker kind, Option.bind_some, Option.isNone_iff_eq_none.mp kind]
          rfl

/-- Segments of which only markers were left out, and none that readers of a text that ends at
`stop` depend on. -/
structure Thinned (stop : Position) (segments kept : List Segment) : Prop where
  fewer : kept.Sublist segments
  traced : ∀ segment ∈ segments, segment.isMarker = false → segment ∈ kept
  firstTraced : ∀ front segment back, kept = front ++ segment :: back →
    (∀ earlier ∈ front, earlier.position.line ≠ segment.position.line) → segment.isMarker = false
  markersApart : ∀ front first second back, kept = front ++ first :: second :: back →
    first.position.line = second.position.line →
      ¬ (first.isMarker = true ∧ second.isMarker = true)
  markersBefore : ∀ segment ∈ kept, segment.isMarker = true → segment.position < stop
  sameOrigin : ∀ place, place < stop →
    (lastCovering place kept).bind origin = (lastCovering place segments).bind origin

/-- Pruning drops markers alone, and leaves none at the start of a line, behind another of its line
or from the end on. What is in front of the end comes from where it came from before, and to prune
once more changes nothing. One pass does it that remembers a line, and whether a traced segment has
been kept last on it. -/
theorem prune_thins {segments : List Segment} (ordered : Ordered segments) (stop : Position) :
    Thinned stop segments (prune stop segments) ∧
      prune stop (prune stop segments) = prune stop segments ∧
      (segments.foldl (Sweep.take stop) {}).kept = prune stop segments := by
  have pruned := prune_pruned stop segments
  have markersBefore (segment : Segment) (member : segment ∈ prune stop segments)
      (marker : segment.isMarker = true) : segment.position < stop :=
    lt_of_mem_pruneFrom member marker
  refine ⟨?_, pruneFrom_eq_self pruned markersBefore, Sweep.kept_foldl {} stop segments⟩
  exact
    { fewer := prune_sublist stop segments
      traced := fun segment member traced => mem_pruneFrom_of_traced member traced
      firstTraced := by
        intro front segment back whole first
        rw [whole] at pruned
        exact pruned.isMarker_eq_false_of_first first
      markersApart := by
        intro front first second back whole _
        rw [whole] at pruned
        exact pruned.markers_apart
      markersBefore
      sameOrigin := by
        intro place before
        have told := tracing_prune before ordered
        rw [← bind_origin_unlessMarker, ← bind_origin_unlessMarker (lastCovering place segments)]
        exact congrArg (fun found => found.bind origin) told }

theorem prune_thins_markers :
    let segments : List Segment :=
      [.marker ⟨1, 0⟩, .traced ⟨1, 2⟩ 0 1 0, .marker ⟨1, 4⟩, .marker ⟨1, 6⟩, .marker ⟨2, 3⟩,
        .traced ⟨2, 5⟩ 0 2 0, .marker ⟨2, 8⟩, .traced ⟨2, 9⟩ 0 2 4, .marker ⟨2, 12⟩]
    let kept : List Segment :=
      [.traced ⟨1, 2⟩ 0 1 0, .marker ⟨1, 4⟩, .traced ⟨2, 5⟩ 0 2 0, .marker ⟨2, 8⟩,
        .traced ⟨2, 9⟩ 0 2 4]
    Ordered segments ∧ prune ⟨2, 12⟩ segments = kept ∧ Thinned ⟨2, 12⟩ segments kept ∧
      prune ⟨2, 12⟩ kept = kept ∧ (lastCovering ⟨1, 7⟩ kept).bind origin = none ∧
      (lastCovering ⟨2, 11⟩ kept).bind origin = some ⟨0, 2, 4, none⟩ := by
  intro segments kept
  have ordered : Ordered segments := ordered_of_firstDisorder?_eq_none _ (by decide)
  have left : prune ⟨2, 12⟩ segments = kept := by decide
  obtain ⟨thinned, again, _⟩ := prune_thins ordered ⟨2, 12⟩
  rw [left] at thinned again
  refine ⟨ordered, left, thinned, again, ?_, ?_⟩
  · rw [thinned.sameOrigin ⟨1, 7⟩ (by decide)]
    rfl
  · rw [thinned.sameOrigin ⟨2, 11⟩ (by decide)]
    rfl

end Segment

end SourceWeave
