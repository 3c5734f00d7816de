import SourceWeave.Edit
import SourceWeave.Proofs.Search
import SourceWeave.Proofs.Tables
import SourceWeave.Proofs.Units

/-!
Lists of edits. A list that has been accepted is accepted again as it is, and so are the
edits in front of its last and the last by itself. Edits of two texts are the
edits of the texts one after the other, those of the second moved behind the first.
-/

set_option autoImplicit false

namespace SourceWeave

/-- An edit of whole characters: both its ends fall between two characters or at an end of
the text. -/
def Edit.Aligned (characters : List Char) (edit : Edit) : Prop :=
  Utf16.Aligned characters edit.start ∧ Utf16.Aligned characters edit.stop

instance (characters : List Char) (edit : Edit) : Decidable (edit.Aligned characters) :=
  inferInstanceAs (Decidable (_ ∧ _))

def Edit.shifted (units : Nat) (edit : Edit) : Edit :=
  ⟨units + edit.start, units + edit.stop, edit.replacement⟩

@[simp]
theorem Edit.shifted_start (units : Nat) (edit : Edit) :
    (edit.shifted units).start = units + edit.start :=
  rfl

@[simp]
theorem Edit.shifted_stop (units : Nat) (edit : Edit) :
    (edit.shifted units).stop = units + edit.stop :=
  rfl

@[simp]
theorem Edit.shifted_replacement (units : Nat) (edit : Edit) :
    (edit.shifted units).replacement = edit.replacement :=
  rfl

namespace Edit.Aligned

variable {front back : List Char} {edit : Edit}

theorem stop_le (aligned : edit.Aligned front) : edit.stop ≤ Utf16.length front :=
  aligned.2.le_length

theorem start_le (aligned : edit.Aligned front) : edit.start ≤ Utf16.length front :=
  aligned.1.le_length

theorem append (aligned : edit.Aligned front) (back : List Char) : edit.Aligned (front ++ back) :=
  ⟨(Utf16.aligned_append_iff aligned.start_le).mpr aligned.1,
    (Utf16.aligned_append_iff aligned.stop_le).mpr aligned.2⟩

theorem of_append (aligned : edit.Aligned (front ++ back))
    (startWithin : edit.start ≤ Utf16.length front)
    (stopWithin : edit.stop ≤ Utf16.length front) : edit.Aligned front :=
  ⟨(Utf16.aligned_append_iff startWithin).mp aligned.1,
    (Utf16.aligned_append_iff stopWithin).mp aligned.2⟩

theorem shifted (aligned : edit.Aligned back) (front : List Char) :
    (edit.shifted (Utf16.length front)).Aligned (front ++ back) :=
  ⟨(Utf16.aligned_append_shift_iff front back edit.start).mpr aligned.1,
    (Utf16.aligned_append_shift_iff front back edit.stop).mpr aligned.2⟩

end Edit.Aligned

namespace EditList

theorem ext {left right : EditList} (same : left.edits = right.edits) : left = right := by
  cases left
  cases right
  cases same
  rfl

theorem mem_applicationOrder {given : List Edit} {edit : Edit} :
    edit ∈ applicationOrder given ↔ edit ∈ given :=
  mem_stableSort _ edit given

theorem firstOverlap?_eq_none {edits : List Edit}
    (disjoint : edits.Pairwise fun earlier later => earlier.stop ≤ later.start) :
    firstOverlap? edits = none := by
  fun_induction firstOverlap? edits with
  | case1 earlier later rest overlaps =>
      have apart := (List.pairwise_cons.mp disjoint).1 later List.mem_cons_self
      omega
  | case2 earlier later rest _ ih => exact ih (List.pairwise_cons.mp disjoint).2
  | case3 => rfl

/-- A list is accepted exactly if no edit goes backwards and none overlap once they are in
order; it is kept in that order. -/
theorem ofList_eq_ok_iff {given : List Edit} {list : EditList} :
    ofList given = .ok list ↔ list.edits = applicationOrder given := by
  constructor
  · intro accepted
    unfold ofList at accepted
    split at accepted
    · cases accepted
    · split at accepted
      · cases accepted
      · cases accepted
        rfl
  · intro isOrder
    have allForward : given.find? (fun edit => decide (edit.stop < edit.start)) = none := by
      apply List.find?_eq_none.mpr
      intro edit member
      have forward := list.forward edit (isOrder ▸ mem_applicationOrder.mpr member)
      simpa using forward
    have apart : firstOverlap? (applicationOrder given) = none := by
      rw [← isOrder]
      exact firstOverlap?_eq_none list.disjoint
    unfold ofList
    split
    · rename_i edit backwards
      rw [allForward] at backwards
      cases backwards
    · split
      · rename_i earlier later overlap
        rw [apart] at overlap
        cases overlap
      · exact congrArg Except.ok (ext isOrder.symm)

theorem applicationOrder_of_disjoint {edits : List Edit}
    (forward : ∀ edit ∈ edits, edit.start ≤ edit.stop)
    (disjoint : edits.Pairwise fun earlier later => earlier.stop ≤ later.start) :
    applicationOrder edits = edits := by
  apply stableSort_eq_self
  refine List.Pairwise.imp_of_mem ?_ disjoint
  intro earlier later inEarlier inLater apart
  have earlierForward := forward earlier inEarlier
  have laterForward := forward later inLater
  simp only [decide_eq_true_eq]
  omega

def sublist (list : EditList) {edits : List Edit} (fewer : edits.Sublist list.edits) :
    EditList where
  edits
  forward := fun edit member => list.forward edit (fewer.subset member)
  disjoint := List.Pairwise.sublist fewer list.disjoint

theorem sublist_inOrder (list : EditList) {edits : List Edit}
    (fewer : edits.Sublist list.edits) : (list.sublist fewer).edits = applicationOrder edits :=
  (applicationOrder_of_disjoint (list.sublist fewer).forward (list.sublist fewer).disjoint).symm

def nothing : EditList where
  edits := []
  forward := fun _ impossible => nomatch impossible
  disjoint := List.Pairwise.nil

theorem nothing_within (units : Nat) : ∀ edit ∈ nothing.edits, edit.stop ≤ units := by
  intro edit impossible
  cases impossible

/-! ### Edits of two texts -/

def append (units : Nat) (early late : EditList) (within : ∀ edit ∈ early.edits, edit.stop ≤ units) :
    EditList where
  edits := early.edits ++ late.edits.map (Edit.shifted units)
  forward := by
    intro edit member
    rcases List.mem_append.mp member with isEarly | isLate
    · exact early.forward edit isEarly
    · obtain ⟨original, inLate, isEdit⟩ := List.mem_map.mp isLate
      rw [← isEdit]
      exact Nat.add_le_add_left (late.forward original inLate) units
  disjoint := by
    apply List.pairwise_append.mpr
    refine ⟨early.disjoint, ?_, ?_⟩
    · apply List.pairwise_map.mpr
      refine List.Pairwise.imp ?_ late.disjoint
      exact fun apart => Nat.add_le_add_left apart units
    · intro earlier isEarly later isLate
      obtain ⟨original, _, isLater⟩ := List.mem_map.mp isLate
      rw [← isLater]
      exact Nat.le_trans (within earlier isEarly) (Nat.le_add_right _ _)

theorem append_inOrder {units : Nat} {earlyGiven lateGiven : List Edit} {early late : EditList}
    (isEarly : early.edits = applicationOrder earlyGiven)
    (isLate : late.edits = applicationOrder lateGiven)
    (within : ∀ edit ∈ early.edits, edit.stop ≤ units) :
    (append units early late within).edits =
      applicationOrder (earlyGiven ++ lateGiven.map (Edit.shifted units)) := by
  have shiftedOrder : applicationOrder (lateGiven.map (Edit.shifted units)) =
      (applicationOrder lateGiven).map (Edit.shifted units) := by
    apply stableSort_map
    intro left right
    simp
  change early.edits ++ late.edits.map (Edit.shifted units) = _
  rw [isEarly, isLate, ← shiftedOrder]
  symm
  apply stableSort_append
  intro earlier inEarly later inLate
  obtain ⟨original, inGiven, isLater⟩ := List.mem_map.mp inLate
  have member := isEarly ▸ mem_applicationOrder.mpr inEarly
  have forward := early.forward earlier member
  have ends := within earlier member
  have lateForward := late.forward original (isLate ▸ mem_applicationOrder.mpr inGiven)
  rw [← isLater]
  apply decide_eq_true
  rw [Edit.shifted_start, Edit.shifted_stop]
  omega

/-! ### Pieces -/

theorem pieces_eq_ok {list : EditList} {length : Nat}
    (within : ∀ edit ∈ list.edits, edit.stop ≤ length) :
    list.pieces length = .ok (piecesFrom 0 length list.edits) := by
  have noneOutside : (list.edits.find? fun edit => decide (length < edit.stop)) = none := by
    apply List.find?_eq_none.mpr
    intro edit member
    simpa using within edit member
  rw [pieces, noneOutside]

end EditList

end SourceWeave
