import SourceWeave.Proofs.Editing

/-!
Which edits go together. Only neighbours are compared once the edits are in order, and that finds
any two that overlap. The order in which edits are given counts for insertions at the same offset
alone.
-/

set_option autoImplicit false

namespace SourceWeave

namespace Edit

/-- One of the edits ends before the other starts. -/
def Apart (left right : Edit) : Prop :=
  left.stop ≤ right.start ∨ right.stop ≤ left.start

instance (left right : Edit) : Decidable (left.Apart right) :=
  inferInstanceAs (Decidable (_ ∨ _))

theorem Apart.symm {left right : Edit} (apart : left.Apart right) : right.Apart left :=
  Or.symm apart

def insertsAt (offset : Nat) (edit : Edit) : Bool :=
  decide (edit.start = offset ∧ edit.stop = offset)

def precedes (left right : Edit) : Bool :=
  decide (left.start < right.start ∨ left.start = right.start ∧ left.stop ≤ right.stop)

theorem precedes_iff {left right : Edit} :
    left.precedes right = true ↔
      left.start < right.start ∨ left.start = right.start ∧ left.stop ≤ right.stop :=
  decide_eq_true_iff

theorem precedes_total (left right : Edit) :
    left.precedes right = true ∨ right.precedes left = true := by
  rw [precedes_iff, precedes_iff]
  omega

theorem precedes_trans {first second third : Edit} (before : first.precedes second = true)
    (after : second.precedes third = true) : first.precedes third = true := by
  rw [precedes_iff] at *
  omega

theorem tied_iff {left right : Edit} :
    tied precedes left right = true ↔ left.start = right.start ∧ left.stop = right.stop := by
  rw [SourceWeave.tied_iff, precedes_iff, precedes_iff]
  omega

theorem stop_le_of_apart {left right : Edit} (forward : right.start ≤ right.stop)
    (inOrder : left.precedes right = true) (apart : left.Apart right) :
    left.stop ≤ right.start := by
  rw [precedes_iff] at inOrder
  rcases apart with before | behind
  · exact before
  · -- Only an insertion at the start of the first can precede nothing of it.
    omega

end Edit

namespace EditList

variable {given other : List Edit}

theorem applicationOrder_perm (given : List Edit) : (applicationOrder given).Perm given :=
  stableSort_perm given

theorem applicationOrder_pairwise (given : List Edit) :
    (applicationOrder given).Pairwise fun left right => left.precedes right = true :=
  stableSort_pairwise Edit.precedes_total Edit.precedes_trans given

theorem filter_insertsAt (offset : Nat) (given : List Edit) :
    (applicationOrder given).filter (Edit.insertsAt offset) =
      given.filter (Edit.insertsAt offset) := by
  change (stableSort Edit.precedes given).filter _ = _
  apply filter_stableSort
  intro left right leftInserts rightInserts
  rw [Edit.insertsAt, decide_eq_true_eq] at leftInserts rightInserts
  rw [Edit.precedes_iff]
  omega

theorem exists_inOrder_iff :
    (∃ list : EditList, list.edits = applicationOrder given) ↔
      (∀ edit ∈ given, edit.start ≤ edit.stop) ∧ given.Pairwise Edit.Apart := by
  have perm := applicationOrder_perm given
  constructor
  · intro accepted
    obtain ⟨list, isOrder⟩ := accepted
    have forward := list.forward
    have disjoint := list.disjoint
    rw [isOrder] at forward disjoint
    refine ⟨fun edit member => forward edit (mem_applicationOrder.mpr member), ?_⟩
    apply (perm.pairwise_iff Edit.Apart.symm).mp
    exact List.Pairwise.imp Or.inl disjoint
  · intro goTogether
    obtain ⟨forward, apart⟩ := goTogether
    have forwardInOrder (edit : Edit) (member : edit ∈ applicationOrder given) :
        edit.start ≤ edit.stop := forward edit (mem_applicationOrder.mp member)
    have apartInOrder := (perm.pairwise_iff Edit.Apart.symm).mpr apart
    refine ⟨⟨applicationOrder given, forwardInOrder, ?_⟩, rfl⟩
    refine List.Pairwise.imp_of_mem ?_ ((applicationOrder_pairwise given).and apartInOrder)
    intro earlier later _ isLater both
    exact Edit.stop_le_of_apart (forwardInOrder later isLater) both.1 both.2

/-- Of edits that are no insertions and keep apart, no two have a rank in common. -/
theorem filter_tied_eq_of_perm {list otherList : EditList} (perm : list.edits.Perm otherList.edits)
    {edit : Edit} (replaces : edit.start < edit.stop) :
    list.edits.filter (tied Edit.precedes edit) =
      otherList.edits.filter (tied Edit.precedes edit) := by
  have disjoint (held : EditList) :
      (held.edits.filter (tied Edit.precedes edit)).Pairwise fun earlier later =>
        earlier.stop ≤ later.start :=
    held.disjoint.sublist List.filter_sublist
  refine List.Perm.eq_of_pairwise ?_ (disjoint list) (disjoint otherList) (perm.filter _)
  intro left right inLeft inRight before _
  have leftEnds := Edit.tied_iff.mp (List.mem_filter.mp inLeft).2
  have rightEnds := Edit.tied_iff.mp (List.mem_filter.mp inRight).2
  omega

theorem eq_iff_of_perm {list otherList : EditList} (isOrder : list.edits = applicationOrder given)
    (isOther : otherList.edits = applicationOrder other) (perm : given.Perm other) :
    list = otherList ↔
      ∀ offset, given.filter (Edit.insertsAt offset) = other.filter (Edit.insertsAt offset) := by
  constructor
  · intro same offset
    rw [← filter_insertsAt offset given, ← filter_insertsAt offset other, ← isOrder, ← isOther,
      same]
  · intro sameInsertions
    have permInOrder : list.edits.Perm otherList.edits := by
      rw [isOrder, isOther]
      exact (applicationOrder_perm given).trans (perm.trans (applicationOrder_perm other).symm)
    apply ext
    apply eq_of_filter_tied Edit.precedes_total
    · rw [isOrder]
      exact applicationOrder_pairwise given
    · rw [isOther]
      exact applicationOrder_pairwise other
    · intro edit
      rcases Nat.lt_trichotomy edit.start edit.stop with replaces | inserts | backwards
      · exact filter_tied_eq_of_perm permInOrder replaces
      · -- The edits of this rank are the insertions at its offset.
        have sameRank : tied Edit.precedes edit = Edit.insertsAt edit.start := by
          funext held
          rw [Bool.eq_iff_iff, Edit.tied_iff, Edit.insertsAt, decide_eq_true_eq]
          omega
        rw [sameRank, isOrder, isOther, filter_insertsAt, filter_insertsAt]
        exact sameInsertions edit.start
      · have noneTied (held : EditList) : held.edits.filter (tied Edit.precedes edit) = [] := by
          apply List.filter_eq_nil_iff.mpr
          intro heldEdit member isTied
          have ends := Edit.tied_iff.mp isTied
          have forward := held.forward heldEdit member
          omega
        rw [noneTied, noneTied]

end EditList

namespace SourceTree

variable {child : SourceTree} {given other : List Edit}

theorem isOk_edit_iff :
    (child.edit given).isOk = true ↔
      (∀ edit ∈ given, edit.start ≤ edit.stop) ∧ given.Pairwise Edit.Apart := by
  rw [← EditList.exists_inOrder_iff]
  constructor
  · intro accepted
    obtain ⟨edited, isEdited⟩ := exists_of_isOk accepted
    obtain ⟨list, isOrder, _⟩ := edit_eq_ok_iff.mp isEdited
    exact ⟨list, isOrder⟩
  · intro inOrder
    obtain ⟨list, isOrder⟩ := inOrder
    rw [edit_eq_ok_iff.mpr ⟨list, isOrder, rfl⟩]
    rfl

/-- Edits are accepted exactly if none goes backwards and any two keep apart, whatever the order
in which they are given. Two orders give the same node exactly if they give the insertions at each
offset in the same order. -/
theorem edit_in_any_order (child : SourceTree) (given : List Edit) :
    ((child.edit given).isOk = true ↔
        (∀ edit ∈ given, edit.start ≤ edit.stop) ∧ given.Pairwise Edit.Apart) ∧
      ∀ other, given.Perm other →
        (child.edit other).isOk = (child.edit given).isOk ∧
          ∀ edited otherEdited, child.edit given = .ok edited →
            child.edit other = .ok otherEdited →
              (edited = otherEdited ↔ ∀ offset,
                given.filter (Edit.insertsAt offset) = other.filter (Edit.insertsAt offset)) := by
  refine ⟨isOk_edit_iff, ?_⟩
  intro other perm
  constructor
  · rw [Bool.eq_iff_iff, isOk_edit_iff, isOk_edit_iff, perm.pairwise_iff Edit.Apart.symm]
    simp only [perm.mem_iff]
  · intro edited otherEdited isEdited isOther
    obtain ⟨list, isOrder, isNode⟩ := edit_eq_ok_iff.mp isEdited
    obtain ⟨otherList, isOtherOrder, isOtherNode⟩ := edit_eq_ok_iff.mp isOther
    rw [isNode, isOtherNode, SourceTree.edited.injEq, and_iff_right rfl]
    exact EditList.eq_iff_of_perm isOrder isOtherOrder perm

theorem edit_in_any_order_insertions :
    let child : SourceTree := .plain "abcd" none
    let given : List Edit := [⟨1, 3, "x"⟩, ⟨1, 1, "p"⟩, ⟨3, 3, "q"⟩, ⟨3, 3, "r"⟩]
    let backwards : List Edit := [⟨3, 3, "q"⟩, ⟨3, 3, "r"⟩, ⟨1, 3, "x"⟩, ⟨1, 1, "p"⟩]
    let swapped : List Edit := [⟨1, 3, "x"⟩, ⟨1, 1, "p"⟩, ⟨3, 3, "r"⟩, ⟨3, 3, "q"⟩]
    ∃ edited other, child.edit given = .ok edited ∧ child.edit backwards = .ok edited ∧
      child.edit swapped = .ok other ∧ edited ≠ other := by
  intro child given backwards swapped
  obtain ⟨accepted, inAnyOrder⟩ := edit_in_any_order child given
  have goTogether : (∀ edit ∈ given, edit.start ≤ edit.stop) ∧ given.Pairwise Edit.Apart := by
    decide
  obtain ⟨edited, isEdited⟩ := exists_of_isOk (accepted.mpr goTogether)
  obtain ⟨sameOutcome, backwardsSame⟩ := inAnyOrder backwards (by decide)
  obtain ⟨swappedOutcome, swappedSame⟩ := inAnyOrder swapped (by decide)
  rw [isEdited] at sameOutcome swappedOutcome
  obtain ⟨again, isAgain⟩ := exists_of_isOk sameOutcome
  obtain ⟨other, isOther⟩ := exists_of_isOk swappedOutcome
  have unchanged : edited = again := by
    apply (backwardsSame edited again isEdited isAgain).mpr
    intro offset
    by_cases atOne : offset = 1
    · subst atOne
      decide
    · by_cases atThree : offset = 3
      · subst atThree
        decide
      · simp [given, backwards, Edit.insertsAt, Ne.symm atOne, Ne.symm atThree]
  refine ⟨edited, other, isEdited, unchanged ▸ isAgain, isOther, ?_⟩
  intro same
  have atThree := (swappedSame edited other isEdited isOther).mp same 3
  revert atThree
  decide

end SourceTree

end SourceWeave
