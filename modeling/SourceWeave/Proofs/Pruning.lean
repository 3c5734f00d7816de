import Mathlib.Data.List.Basic
import SourceWeave.Mapping.Cleanup
import SourceWeave.Proofs.Lookup

/-!
What clean-up keeps. Of segments at one place the last is left, and of markers
those that end a traced run; before the end of the text no place is traced to
anything else than before.
-/

set_option autoImplicit false

namespace SourceWeave

namespace Segment

def Sorted (segments : List Segment) : Prop :=
  segments.Pairwise fun earlier later => earlier.position ≤ later.position

theorem Ordered.sorted {segments : List Segment} (ordered : Ordered segments) : Sorted segments :=
  List.Pairwise.imp (fun {_ _} before => Position.le_of_lt before) ordered

theorem Ordered.nodup {segments : List Segment} (ordered : Ordered segments) : segments.Nodup := by
  refine List.Pairwise.imp ?_ ordered
  intro earlier later before same
  rw [same] at before
  exact Position.lt_irrefl _ before

theorem Ordered.eq_of_position {segments : List Segment} (ordered : Ordered segments)
    {left right : Segment} (inLeft : left ∈ segments) (inRight : right ∈ segments)
    (same : left.position = right.position) : left = right := by
  induction segments with
  | nil => cases inLeft
  | cons segment rest ih =>
      obtain ⟨first, tail⟩ := List.pairwise_cons.mp ordered
      rcases List.mem_cons.mp inLeft with isLeft | leftLater
      · rcases List.mem_cons.mp inRight with isRight | rightLater
        · rw [isLeft, isRight]
        · have before := first right rightLater
          rw [← isLeft, same] at before
          exact absurd before (Position.lt_irrefl _)
      · rcases List.mem_cons.mp inRight with isRight | rightLater
        · have before := first left leftLater
          rw [← isRight, same] at before
          exact absurd before (Position.lt_irrefl _)
        · exact ih tail leftLater rightLater

theorem Ordered.eq_of_mem_iff {left right : List Segment} (leftOrdered : Ordered left)
    (rightOrdered : Ordered right) (same : ∀ segment, segment ∈ left ↔ segment ∈ right) :
    left = right := by
  have perm := (List.perm_ext_iff_of_nodup leftOrdered.nodup rightOrdered.nodup).mpr same
  refine perm.eq_of_pairwise ?_ leftOrdered rightOrdered
  intro first second _ _ before after
  exact absurd (Position.lt_trans before after) (Position.lt_irrefl _)

theorem Ordered.lastCovering_eq_some_iff {segments : List Segment} (ordered : Ordered segments)
    {place : Position} {segment : Segment} :
    lastCovering place segments = some segment ↔
      segment ∈ segments ∧ covers place segment = true ∧
        ∀ other ∈ segments, covers place other = true → other.position ≤ segment.position := by
  constructor
  · intro found
    obtain ⟨member, covered⟩ := mem_of_lastCovering found
    refine ⟨member, covered, ?_⟩
    intro other inOther otherCovers
    obtain ⟨last, isLast, atLeast⟩ := lastCovering_eq_some ordered.sorted inOther otherCovers
    rw [found, Option.some.injEq] at isLast
    exact isLast ▸ atLeast
  · intro greatestCovers
    obtain ⟨member, covered, greatest⟩ := greatestCovers
    obtain ⟨last, isLast, atLeast⟩ := lastCovering_eq_some ordered.sorted member covered
    obtain ⟨inLast, lastCovers⟩ := mem_of_lastCovering isLast
    have same := Position.le_antisymm atLeast (greatest last inLast lastCovers)
    rw [isLast, ordered.eq_of_position inLast member same.symm]

/-- What covers a place lies in the range between another place and it, or else covers
the other place too. -/
theorem Ordered.lastCovering_eq_or {segments : List Segment} (ordered : Ordered segments)
    {start stop place : Position} (fromStart : start ≤ place) (before : place < stop) :
    lastCovering place segments =
      (lastCovering place (segments.filter fun segment =>
        decide (start < segment.position ∧ segment.position < stop))).or
          (if start.line = place.line then lastCovering start segments else none) := by
  have upToStart : FailsOn (fun segment => decide (segment.position ≤ start)) segments := by
    refine List.Pairwise.imp ?_ ordered
    intro earlier later inOrder reached
    exact decide_eq_true (Position.le_trans (Position.le_of_lt inOrder) (of_decide_eq_true reached))
  have further : (segments.filter fun segment => !decide (segment.position ≤ start)).filter
      (covers place) = (segments.filter fun segment =>
        decide (start < segment.position ∧ segment.position < stop)).filter (covers place) := by
    rw [List.filter_filter, List.filter_filter]
    apply List.filter_congr
    intro segment _member
    cases covered : covers place segment with
    | false => rfl
    | true =>
        have inside := Position.lt_of_le_of_lt (le_of_covers covered) before
        rw [Bool.eq_iff_iff]
        simp only [Bool.true_and, Bool.not_eq_true', decide_eq_false_iff_not, Position.not_le,
          decide_eq_true_eq, inside, and_true]
  have atMost : (segments.filter fun segment => decide (segment.position ≤ start)).filter
      (covers place) = if start.line = place.line then segments.filter (covers start) else [] := by
    rw [Position.le_iff] at fromStart
    rw [List.filter_filter]
    split
    · apply List.filter_congr
      intro segment _member
      rw [Bool.eq_iff_iff, Bool.and_eq_true, covers_iff, covers_iff, decide_eq_true_eq,
        Position.le_iff]
      omega
    · apply List.filter_eq_nil_iff.mpr
      intro segment _member both
      rw [Bool.and_eq_true, covers_iff, decide_eq_true_eq, Position.le_iff] at both
      omega
  calc lastCovering place segments
      = lastCovering place ((segments.filter fun segment => decide (segment.position ≤ start)) ++
          segments.filter fun segment => !decide (segment.position ≤ start)) := by
        rw [upToStart.filter_append]
    _ = _ := by
        rw [lastCovering_append, lastCovering, lastCovering, lastCovering, further, atMost]
        congr 1
        split <;> rfl

/-! ### The last of several at one place -/

theorem keepLast_sublist (segments : List Segment) : (keepLast segments).Sublist segments := by
  fun_induction keepLast segments with
  | case1 earlier later rest _same ih => exact List.Sublist.cons _ ih
  | case2 earlier later rest _different ih => exact List.Sublist.cons_cons _ ih
  | case3 => exact List.Sublist.refl _

theorem keepLast_ordered {segments : List Segment} (sorted : Sorted segments) :
    Ordered (keepLast segments) := by
  fun_induction keepLast segments with
  | case1 earlier later rest _same ih => exact ih (List.pairwise_cons.mp sorted).2
  | case2 earlier later rest different ih =>
      obtain ⟨first, tail⟩ := List.pairwise_cons.mp sorted
      refine List.pairwise_cons.mpr ⟨?_, ih tail⟩
      intro segment member
      have atLater : earlier.position < later.position :=
        Position.lt_of_le_of_ne (first later List.mem_cons_self) different
      rcases List.mem_cons.mp ((keepLast_sublist _).subset member) with same | behind
      · exact same ▸ atLater
      · exact Position.lt_of_lt_of_le atLater ((List.pairwise_cons.mp tail).1 segment behind)
  | case3 segments short =>
      match segments, short with
      | [], _ => exact List.Pairwise.nil
      | [single], _ => exact List.pairwise_singleton _ single
      | earlier :: later :: rest, short => exact absurd rfl (short earlier later rest)

theorem lastCovering_keepLast (place : Position) (segments : List Segment) :
    lastCovering place (keepLast segments) = lastCovering place segments := by
  fun_induction keepLast segments with
  | case1 earlier later rest same ih =>
      rw [ih, lastCovering_cons place earlier, lastCovering_cons place later]
      cases covered : covers place later with
      | true =>
          rw [if_pos rfl]
          cases lastCovering place rest <;> rfl
      | false =>
          have alike : covers place earlier = false := by
            rw [← covered, covers, covers, same]
          rw [alike]
          cases lastCovering place rest <;> rfl
  | case2 earlier later rest _different ih => rw [lastCovering_cons, ih, ← lastCovering_cons]
  | case3 => rfl

theorem latest_of_sorted {segments : List Segment} (sorted : Sorted segments) :
    latest segments = keepLast segments := by
  rw [latest, stableSort_eq_self]
  exact List.Pairwise.imp (fun {_ _} before => decide_eq_true before) sorted

/-! ### Markers with an effect -/

/-- Every marker follows a traced segment of its own line; `covered` is the line of
a traced segment in front of all. -/
def Pruned (covered : Option Nat) : List Segment → Prop
  | [] => True
  | segment :: rest =>
      (segment.isMarker = true → covered = some segment.position.line) ∧
        Pruned (if segment.isMarker then none else some segment.position.line) rest

theorem Pruned.of_none {covered : Option Nat} {segments : List Segment}
    (pruned : Pruned none segments) : Pruned covered segments := by
  cases segments with
  | nil => trivial
  | cons segment rest => exact ⟨fun marker => (by cases pruned.1 marker), pruned.2⟩

theorem pruneFrom_sublist (stop : Position) (covered : Option Nat) (segments : List Segment) :
    (pruneFrom stop covered segments).Sublist segments := by
  fun_induction pruneFrom stop covered segments with
  | case1 => exact List.Sublist.refl _
  | case2 covered segment rest line _traced ih => exact List.Sublist.cons_cons _ ih
  | case3 covered segment rest line _marker _uncovered ih => exact List.Sublist.cons _ ih
  | case4 covered segment rest line _marker _covered _before ih => exact List.Sublist.cons_cons _ ih
  | case5 covered segment rest line _marker _covered _past ih => exact List.Sublist.cons _ ih

theorem pruneFrom_pruned (stop : Position) (covered : Option Nat) (segments : List Segment) :
    Pruned covered (pruneFrom stop covered segments) := by
  fun_induction pruneFrom stop covered segments with
  | case1 => trivial
  | case2 covered segment rest line traced ih =>
      rw [Bool.not_eq_true'] at traced
      refine ⟨fun marker => absurd marker (by rw [traced]; exact Bool.false_ne_true), ?_⟩
      rw [traced]
      exact ih
  | case3 covered segment rest line _marker _uncovered ih => exact ih.of_none
  | case4 covered segment rest line marker isCovered _before ih =>
      rw [Bool.not_eq_true', Bool.not_eq_false] at marker
      refine ⟨fun _ => Classical.not_not.mp isCovered, ?_⟩
      rw [marker]
      exact ih
  | case5 covered segment rest line _marker _covered _past ih => exact ih

theorem prune_sublist (stop : Position) (segments : List Segment) :
    (prune stop segments).Sublist segments :=
  pruneFrom_sublist stop none segments

theorem prune_pruned (stop : Position) (segments : List Segment) :
    Pruned none (prune stop segments) :=
  pruneFrom_pruned stop none segments

theorem lt_of_mem_pruneFrom {stop : Position} {covered : Option Nat} {segments : List Segment}
    {segment : Segment} (member : segment ∈ pruneFrom stop covered segments)
    (marker : segment.isMarker = true) : segment.position < stop := by
  fun_induction pruneFrom stop covered segments with
  | case1 => cases member
  | case2 covered first rest line traced ih =>
      rcases List.mem_cons.mp member with same | later
      · rw [← same, marker] at traced
        cases traced
      · exact ih later
  | case3 covered first rest line _marker _uncovered ih => exact ih member
  | case4 covered first rest line _marker _covered before ih =>
      rcases List.mem_cons.mp member with same | later
      · exact same ▸ before
      · exact ih later
  | case5 covered first rest line _marker _covered _past ih => exact ih member

theorem Pruned.before_marker {covered : Option Nat} {front back : List Segment}
    {marker : Segment} (pruned : Pruned covered (front ++ marker :: back))
    (isMarker : marker.isMarker = true) :
    (front = [] ∧ covered = some marker.position.line) ∨
      ∃ others traced, front = others ++ [traced] ∧ traced.isMarker = false ∧
        traced.position.line = marker.position.line := by
  induction front generalizing covered with
  | nil => exact Or.inl ⟨rfl, pruned.1 isMarker⟩
  | cons segment rest ih =>
      right
      rcases ih pruned.2 with ⟨alone, follows⟩ | ⟨others, traced, whole, isTraced, sameLine⟩
      · cases kind : segment.isMarker with
        | true =>
            rw [kind] at follows
            cases follows
        | false =>
            rw [kind] at follows
            exact ⟨[], segment, by rw [alone]; rfl, kind, Option.some.inj follows⟩
      · exact ⟨segment :: others, traced, by rw [whole]; rfl, isTraced, sameLine⟩

theorem Pruned.isMarker_eq_false_of_first {front back : List Segment} {segment : Segment}
    (pruned : Pruned none (front ++ segment :: back))
    (first : ∀ earlier ∈ front, earlier.position.line ≠ segment.position.line) :
    segment.isMarker = false := by
  cases kind : segment.isMarker with
  | false => rfl
  | true =>
      rcases pruned.before_marker kind with
        ⟨_, impossible⟩ | ⟨others, traced, isFront, _, sameLine⟩
      · cases impossible
      · have inFront : traced ∈ front := by
          rw [isFront]
          exact List.mem_append_right _ List.mem_cons_self
        exact absurd sameLine (first traced inFront)

theorem Pruned.markers_apart {front back : List Segment} {first second : Segment}
    (pruned : Pruned none (front ++ first :: second :: back)) :
    ¬ (first.isMarker = true ∧ second.isMarker = true) := by
  intro bothMarkers
  obtain ⟨firstMarker, secondMarker⟩ := bothMarkers
  rw [← List.singleton_append, ← List.append_assoc] at pruned
  rcases pruned.before_marker secondMarker with
    ⟨impossible, _⟩ | ⟨others, traced, isFront, isTraced, _⟩
  · exact absurd impossible (by simp)
  · obtain ⟨_, same⟩ := List.append_inj' isFront rfl
    rw [← List.singleton_inj.mp same, firstMarker] at isTraced
    cases isTraced

theorem pruneFrom_traced (stop : Position) (covered : Option Nat) {segment : Segment}
    (rest : List Segment) (traced : segment.isMarker = false) :
    pruneFrom stop covered (segment :: rest) =
      segment :: pruneFrom stop (some segment.position.line) rest := by
  rw [pruneFrom, traced]
  rfl

theorem pruneFrom_uncovered (stop : Position) {covered : Option Nat} {segment : Segment}
    (rest : List Segment) (marker : segment.isMarker = true)
    (uncovered : covered ≠ some segment.position.line) :
    pruneFrom stop covered (segment :: rest) = pruneFrom stop none rest := by
  rw [pruneFrom, marker]
  exact if_pos uncovered

theorem pruneFrom_marker {stop : Position} {segment : Segment} (rest : List Segment)
    (marker : segment.isMarker = true) (before : segment.position < stop) :
    pruneFrom stop (some segment.position.line) (segment :: rest) =
      segment :: pruneFrom stop none rest := by
  simp [pruneFrom, marker, before]

theorem pruneFrom_past {stop : Position} {segment : Segment} (rest : List Segment)
    (marker : segment.isMarker = true) (past : ¬ segment.position < stop) :
    pruneFrom stop (some segment.position.line) (segment :: rest) =
      pruneFrom stop (some segment.position.line) rest := by
  simp [pruneFrom, marker, past]

/-- What covers a place before the end is traced as before. `held` stands for a
segment in front of all; if it is traced, the pruning knows its line. -/
private theorem tracing_pruneFrom {stop place : Position} (before : place < stop)
    {covered : Option Nat} {segments : List Segment} (ordered : Ordered segments)
    (bound : ∀ line, covered = some line → ∀ segment ∈ segments, line ≤ segment.position.line)
    {held kept : Option Segment} (same : unlessMarker kept = unlessMarker held)
    (known : unlessMarker held ≠ none → covered = some place.line) :
    unlessMarker ((lastCovering place (pruneFrom stop covered segments)).or kept) =
      unlessMarker ((lastCovering place segments).or held) := by
  induction segments generalizing covered held kept with
  | nil => exact same
  | cons segment rest ih =>
      obtain ⟨first, tail⟩ := List.pairwise_cons.mp ordered
      have noLine : ∀ line, (none : Option Nat) = some line → ∀ other ∈ rest,
          line ≤ other.position.line := by
        intro line impossible
        cases impossible
      have ownLine : ∀ line, some segment.position.line = some line → ∀ other ∈ rest,
          line ≤ other.position.line := by
        intro line isLine other member
        have after := first other member
        rw [← Option.some.inj isLine]
        rw [Position.lt_iff] at after
        omega
      by_cases later : place < segment.position
      · -- Nothing from here on covers the place, pruned or not.
        have noneCovers : ∀ other ∈ segment :: rest, place < other.position := by
          intro other member
          rcases List.mem_cons.mp member with isFirst | inRest
          · exact isFirst ▸ later
          · exact Position.lt_trans later (first other inRest)
        rw [lastCovering_of_later noneCovers, lastCovering_of_later fun other member =>
          noneCovers other ((pruneFrom_sublist stop covered _).subset member)]
        exact same
      · have reached := Position.not_lt.mp later
        have inText : segment.position < stop := Position.lt_of_le_of_lt reached before
        by_cases onLine : segment.position.line = place.line
        · have covers := covers_of_le onLine reached
          rw [lastCovering_cons_of_covers covers rest held]
          cases kind : segment.isMarker with
          | false =>
              rw [pruneFrom_traced stop covered rest kind, lastCovering_cons_of_covers covers]
              exact ih tail ownLine rfl fun _ => congrArg some onLine
          | true =>
              have silent := unlessMarker_marker kind
              by_cases isCovered : covered = some segment.position.line
              · rw [isCovered, pruneFrom_marker rest kind inText,
                  lastCovering_cons_of_covers covers]
                exact ih tail noLine rfl fun traced => absurd silent traced
              · rw [pruneFrom_uncovered stop rest kind isCovered]
                have unheld : unlessMarker held = none := by
                  apply Classical.byContradiction
                  intro traced
                  rw [onLine] at isCovered
                  exact isCovered (known traced)
                exact ih tail noLine (by rw [same, unheld, silent]) fun traced =>
                  absurd silent traced
        · -- The segment stands on an earlier line, so nothing traced can be held.
          have notCovers : covers place segment = false := by
            cases found : covers place segment with
            | false => rfl
            | true => exact absurd (covers_iff.mp found).1 onLine
          have unheld : unlessMarker held = none := by
            apply Classical.byContradiction
            intro traced
            have atLeast := bound place.line (known traced) segment List.mem_cons_self
            rw [Position.le_iff] at reached
            omega
          rw [lastCovering_cons_of_not notCovers]
          cases kind : segment.isMarker with
          | false =>
              rw [pruneFrom_traced stop covered rest kind, lastCovering_cons_of_not notCovers]
              exact ih tail ownLine same fun traced => absurd unheld traced
          | true =>
              by_cases isCovered : covered = some segment.position.line
              · rw [isCovered, pruneFrom_marker rest kind inText,
                  lastCovering_cons_of_not notCovers]
                exact ih tail noLine same fun traced => absurd unheld traced
              · rw [pruneFrom_uncovered stop rest kind isCovered]
                exact ih tail noLine same fun traced => absurd unheld traced

theorem tracing_prune {stop place : Position} (before : place < stop) {segments : List Segment}
    (ordered : Ordered segments) :
    tracing place (prune stop segments) = tracing place segments := by
  have noLine : ∀ line, (none : Option Nat) = some line → ∀ segment ∈ segments,
      line ≤ segment.position.line := by
    intro line impossible
    cases impossible
  have unheld : unlessMarker (none : Option Segment) ≠ none →
      (none : Option Nat) = some place.line := fun impossible => absurd rfl impossible
  have result := tracing_pruneFrom before ordered noLine rfl unheld
  rw [Option.or_none, Option.or_none] at result
  exact result

theorem tracing_latest {segments : List Segment} (sorted : Sorted segments) (place : Position) :
    tracing place (latest segments) = tracing place segments := by
  rw [tracing, latest_of_sorted sorted, lastCovering_keepLast]
  rfl

end Segment

end SourceWeave
