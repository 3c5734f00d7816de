import SourceWeave.PartitionPoint
import SourceWeave.StableSort

/-!
What searching by halves and sorting by insertion give. A search finds the length
of the part that passes, provided that nothing passes behind something that fails;
a sort leaves alone what is in order, also the order of two lists one after the other.
-/

set_option autoImplicit false

namespace SourceWeave

section PartitionPoint

variable {α : Type} (passes : α → Bool)

/-- The search keeps the length of the passing part between its two ends. -/
private theorem partitionPointBetween_eq (items : Array α) (low high count : Nat)
    (fromLow : low ≤ count) (toHigh : count ≤ high) (bounded : high ≤ items.size)
    (before : ∀ index item, index < count → items[index]? = some item → passes item = true)
    (behind : ∀ index item, count ≤ index → items[index]? = some item → passes item = false) :
    partitionPointBetween passes items low high = count := by
  fun_induction partitionPointBetween passes items low high with
  | case1 low high within middle found ih =>
      apply ih
      · apply Nat.lt_of_not_le
        intro outside
        have inside : middle < items.size := by omega
        have failed := behind middle items[middle] outside (Array.getElem?_eq_getElem inside)
        rw [Array.getElem?_eq_getElem inside, Option.any_some, failed] at found
        cases found
      · exact toHigh
      · exact bounded
  | case2 low high within middle missed ih =>
      apply ih
      · exact fromLow
      · apply Nat.le_of_not_lt
        intro outside
        have inside : middle < items.size := by omega
        have passed := before middle items[middle] outside (Array.getElem?_eq_getElem inside)
        rw [Array.getElem?_eq_getElem inside, Option.any_some, passed] at missed
        exact missed rfl
      · omega
  | case3 low high met => omega

private theorem partitionPointBetween_le (items : Array α) {low high : Nat} (inOrder : low ≤ high) :
    partitionPointBetween passes items low high ≤ high := by
  fun_induction partitionPointBetween passes items low high with
  | case1 low high within middle found ih => exact ih (by omega)
  | case2 low high within middle missed ih => exact Nat.le_trans (ih (by omega)) (by omega)
  | case3 low high met => exact inOrder

theorem partitionPoint_le_size (items : Array α) : partitionPoint passes items ≤ items.size :=
  partitionPointBetween_le passes items (Nat.zero_le _)

theorem partitionPoint_append {items : Array α} {front back : List α}
    (whole : items.toList = front ++ back) (pass : ∀ item ∈ front, passes item = true)
    (fail : ∀ item ∈ back, passes item = false) :
    partitionPoint passes items = front.length := by
  apply partitionPointBetween_eq passes items
  · exact Nat.zero_le _
  · rw [← Array.length_toList, whole, List.length_append]
    exact Nat.le_add_right _ _
  · exact Nat.le_refl _
  · intro index item within present
    rw [← Array.getElem?_toList, whole, List.getElem?_append_left within] at present
    exact pass item (List.mem_of_getElem? present)
  · intro index item outside present
    rw [← Array.getElem?_toList, whole, List.getElem?_append_right outside] at present
    exact fail item (List.mem_of_getElem? present)

def FailsOn (items : List α) : Prop :=
  items.Pairwise fun earlier later => passes later = true → passes earlier = true

theorem FailsOn.filter_append {passes : α → Bool} {items : List α}
    (failsOn : FailsOn passes items) :
    items.filter passes ++ items.filter (fun item => !passes item) = items := by
  induction items with
  | nil => rfl
  | cons item rest ih =>
      obtain ⟨first, tail⟩ := List.pairwise_cons.mp failsOn
      cases passed : passes item with
      | true => simp only [List.filter_cons, passed, if_true, Bool.not_true, Bool.false_eq_true,
          if_false, List.cons_append, ih tail]
      | false =>
          have noneLater : rest.filter passes = [] := by
            apply List.filter_eq_nil_iff.mpr
            intro other member late
            rw [first other member late] at passed
            cases passed
          have behind := ih tail
          rw [noneLater, List.nil_append] at behind
          simp only [List.filter_cons, passed, Bool.false_eq_true, if_false, Bool.not_false,
            if_true, noneLater, List.nil_append, behind]

theorem partitionPoint_eq_length {passes : α → Bool} {items : Array α}
    (failsOn : FailsOn passes items.toList) :
    partitionPoint passes items = (items.toList.filter passes).length := by
  apply partitionPoint_append passes failsOn.filter_append.symm
  · intro item member
    exact (List.mem_filter.mp member).2
  · intro item member
    simpa using (List.mem_filter.mp member).2

theorem FailsOn.take_length {passes : α → Bool} {items : List α} (failsOn : FailsOn passes items) :
    items.take (items.filter passes).length = items.filter passes := by
  have parts := failsOn.filter_append
  calc items.take (items.filter passes).length
      = (items.filter passes ++ items.filter fun item => !passes item).take
          (items.filter passes).length := by rw [parts]
    _ = items.filter passes := List.take_left

theorem FailsOn.drop_length {passes : α → Bool} {items : List α} (failsOn : FailsOn passes items) :
    items.drop (items.filter passes).length = items.filter fun item => !passes item := by
  have parts := failsOn.filter_append
  calc items.drop (items.filter passes).length
      = (items.filter passes ++ items.filter fun item => !passes item).drop
          (items.filter passes).length := by rw [parts]
    _ = items.filter fun item => !passes item := List.drop_left

theorem FailsOn.passes_iff {passes : α → Bool} {items : Array α}
    (failsOn : FailsOn passes items.toList) {index : Nat} {item : α}
    (isItem : items.toList[index]? = some item) :
    passes item = true ↔ index < partitionPoint passes items := by
  rw [partitionPoint_eq_length failsOn]
  rw [← failsOn.filter_append] at isItem
  by_cases inFront : index < (items.toList.filter passes).length
  · rw [List.getElem?_append_left inFront] at isItem
    have passed := (List.mem_filter.mp (List.mem_of_getElem? isItem)).2
    exact iff_of_true passed inFront
  · rw [List.getElem?_append_right (Nat.le_of_not_lt inFront)] at isItem
    have failed := (List.mem_filter.mp (List.mem_of_getElem? isItem)).2
    rw [Bool.not_eq_true'] at failed
    exact iff_of_false (by rw [failed]; exact Bool.false_ne_true) inFront

theorem partitionPoint_le_partitionPoint {narrow wide : α → Bool} {items : Array α}
    (narrowFails : FailsOn narrow items.toList) (wideFails : FailsOn wide items.toList)
    (included : ∀ item ∈ items.toList, narrow item = true → wide item = true) :
    partitionPoint narrow items ≤ partitionPoint wide items := by
  rw [partitionPoint_eq_length narrowFails, partitionPoint_eq_length wideFails,
    ← List.countP_eq_length_filter, ← List.countP_eq_length_filter]
  exact List.countP_mono_left included

theorem extract_partitionPoint {narrow wide : α → Bool} {items : Array α}
    (narrowFails : FailsOn narrow items.toList) (wideFails : FailsOn wide items.toList)
    (included : ∀ item ∈ items.toList, narrow item = true → wide item = true) :
    (items.extract (partitionPoint narrow items) (partitionPoint wide items)).toList =
      items.toList.filter fun item => wide item && !narrow item := by
  have sameNarrow : (items.toList.filter wide).filter narrow = items.toList.filter narrow := by
    rw [List.filter_filter]
    apply List.filter_congr
    intro item member
    cases narrowed : narrow item with
    | false => rfl
    | true => rw [included item member narrowed, Bool.true_and]
  have narrowOnWide : FailsOn narrow (items.toList.filter wide) :=
    List.Pairwise.sublist List.filter_sublist narrowFails
  rw [partitionPoint_eq_length narrowFails, partitionPoint_eq_length wideFails,
    Array.toList_extract, List.extract_eq_drop_take', wideFails.take_length, ← sameNarrow,
    narrowOnWide.drop_length, List.filter_filter]
  apply List.filter_congr
  intro item _member
  exact Bool.and_comm _ _

end PartitionPoint

section StableSort

variable {α : Type} {inOrder : α → α → Bool}

theorem stableSort_eq_self {items : List α}
    (sorted : items.Pairwise fun left right => inOrder left right = true) :
    stableSort inOrder items = items := by
  induction items with
  | nil => rfl
  | cons item rest ih =>
      obtain ⟨first, tail⟩ := List.pairwise_cons.mp sorted
      rw [stableSort, List.foldr_cons]
      change insertInOrder inOrder item (stableSort inOrder rest) = item :: rest
      rw [ih tail]
      cases rest with
      | nil => rfl
      | cons next others => rw [insertInOrder, if_pos (first next List.mem_cons_self)]

theorem insertInOrder_append {item : α} (front : List α) {back : List α}
    (apart : ∀ other ∈ back, inOrder item other = true) :
    insertInOrder inOrder item (front ++ back) = insertInOrder inOrder item front ++ back := by
  induction front with
  | nil =>
      cases back with
      | nil => rfl
      | cons next others => exact if_pos (apart next List.mem_cons_self)
  | cons first rest ih =>
      rw [List.cons_append, insertInOrder, insertInOrder, ih]
      split <;> rfl

theorem stableSort_append {front back : List α}
    (apart : ∀ left ∈ front, ∀ right ∈ back, inOrder left right = true) :
    stableSort inOrder (front ++ back) =
      stableSort inOrder front ++ stableSort inOrder back := by
  induction front with
  | nil => rfl
  | cons item rest ih =>
      have restApart := ih fun left member => apart left (List.mem_cons_of_mem item member)
      have itemApart (other : α) (member : other ∈ stableSort inOrder back) :
          inOrder item other = true :=
        apart item List.mem_cons_self other ((mem_stableSort inOrder other back).mp member)
      change insertInOrder inOrder item (stableSort inOrder (rest ++ back)) = _
      rw [restApart, insertInOrder_append _ itemApart]
      rfl

theorem stableSort_map {β : Type} {other : β → β → Bool} {change : α → β}
    (same : ∀ left right, other (change left) (change right) = inOrder left right)
    (items : List α) :
    stableSort other (items.map change) = (stableSort inOrder items).map change := by
  have inserted (item : α) (held : List α) :
      insertInOrder other (change item) (held.map change) =
        (insertInOrder inOrder item held).map change := by
    induction held with
    | nil => rfl
    | cons first rest ih =>
        rw [List.map_cons, insertInOrder, insertInOrder, same, ih]
        split <;> rfl
  induction items with
  | nil => rfl
  | cons item rest ih =>
      change insertInOrder other (change item) (stableSort other (rest.map change)) = _
      rw [ih, inserted]
      rfl

/-! ### Stability -/

theorem insertInOrder_perm (item : α) (items : List α) :
    (insertInOrder inOrder item items).Perm (item :: items) := by
  induction items with
  | nil => exact List.Perm.refl _
  | cons first rest ih =>
      unfold insertInOrder
      split
      · exact List.Perm.refl _
      · exact (ih.cons first).trans (List.Perm.swap item first rest)

theorem stableSort_perm (items : List α) : (stableSort inOrder items).Perm items := by
  induction items with
  | nil => exact List.Perm.refl _
  | cons item rest ih => exact (insertInOrder_perm item _).trans (ih.cons item)

/-- Items that may stand in either order stay in the order in which they were given. -/
theorem filter_stableSort {keep : α → Bool}
    (alike : ∀ left right, keep left = true → keep right = true → inOrder left right = true)
    (items : List α) : (stableSort inOrder items).filter keep = items.filter keep := by
  have inserted (item : α) (held : List α) :
      (insertInOrder inOrder item held).filter keep = (item :: held).filter keep := by
    induction held with
    | nil => rfl
    | cons first rest ih =>
        unfold insertInOrder
        split
        · rfl
        · rename_i notBefore
          rw [List.filter_cons, ih]
          cases keepsItem : keep item with
          | false => simp [List.filter_cons, keepsItem]
          | true =>
              have dropsFirst : keep first = false := by
                rw [Bool.eq_false_iff]
                exact fun keepsFirst => notBefore (alike item first keepsItem keepsFirst)
              simp [keepsItem, dropsFirst]
  induction items with
  | nil => rfl
  | cons item rest ih =>
      change (insertInOrder inOrder item (stableSort inOrder rest)).filter keep = _
      rw [inserted, List.filter_cons, List.filter_cons, ih]

def tied (inOrder : α → α → Bool) (item other : α) : Bool :=
  inOrder item other && inOrder other item

theorem tied_iff {item other : α} :
    tied inOrder item other = true ↔ inOrder item other = true ∧ inOrder other item = true := by
  rw [tied, Bool.and_eq_true]

section Total

variable (total : ∀ left right, inOrder left right = true ∨ inOrder right left = true)

include total

theorem stableSort_pairwise
    (transitive : ∀ {first second third}, inOrder first second = true →
      inOrder second third = true → inOrder first third = true) (items : List α) :
    (stableSort inOrder items).Pairwise fun left right => inOrder left right = true := by
  have inserted (item : α) {held : List α}
      (sorted : held.Pairwise fun left right => inOrder left right = true) :
      (insertInOrder inOrder item held).Pairwise fun left right => inOrder left right = true := by
    induction held with
    | nil => exact List.pairwise_singleton _ item
    | cons first rest ih =>
        obtain ⟨head, tail⟩ := List.pairwise_cons.mp sorted
        unfold insertInOrder
        split
        · rename_i before
          refine List.pairwise_cons.mpr ⟨?_, sorted⟩
          intro other member
          rcases List.mem_cons.mp member with isFirst | inRest
          · exact isFirst ▸ before
          · exact transitive before (head other inRest)
        · rename_i notBefore
          refine List.pairwise_cons.mpr ⟨?_, ih tail⟩
          intro other member
          rcases (mem_insertInOrder inOrder item other rest).mp member with isItem | inRest
          · exact isItem ▸ (total item first).resolve_left notBefore
          · exact head other inRest
  induction items with
  | nil => exact List.Pairwise.nil
  | cons item rest ih => exact inserted item ih

/-- Lists in order are the same if they have the same items of each rank, one after the other. -/
theorem eq_of_filter_tied {left right : List α}
    (leftSorted : left.Pairwise fun earlier later => inOrder earlier later = true)
    (rightSorted : right.Pairwise fun earlier later => inOrder earlier later = true)
    (same : ∀ item, left.filter (tied inOrder item) = right.filter (tied inOrder item)) :
    left = right := by
  have itself (item : α) : tied inOrder item item = true :=
    tied_iff.mpr ⟨(total item item).elim id id, (total item item).elim id id⟩
  have present {items others : List α}
      (alike : ∀ item, items.filter (tied inOrder item) = others.filter (tied inOrder item))
      {item : α} (member : item ∈ items) : item ∈ others := by
    have kept := List.mem_filter.mpr ⟨member, itself item⟩
    rw [alike item] at kept
    exact (List.mem_filter.mp kept).1
  induction left generalizing right with
  | nil =>
      cases right with
      | nil => rfl
      | cons item rest =>
          have impossible := present (fun other => (same other).symm) List.mem_cons_self
          cases impossible
  | cons first rest ih =>
      cases right with
      | nil =>
          have impossible := present same List.mem_cons_self
          cases impossible
      | cons other others =>
          obtain ⟨firstLeads, restSorted⟩ := List.pairwise_cons.mp leftSorted
          obtain ⟨otherLeads, othersSorted⟩ := List.pairwise_cons.mp rightSorted
          -- Each of the two stands in the other list, so neither has to stand behind the other.
          have before : inOrder first other = true := by
            rcases List.mem_cons.mp (present (fun item => (same item).symm) List.mem_cons_self) with
              isFirst | inRest
            · rw [isFirst]
              exact (total first first).elim id id
            · exact firstLeads other inRest
          have after : inOrder other first = true := by
            rcases List.mem_cons.mp (present same List.mem_cons_self) with isOther | inOthers
            · rw [isOther]
              exact (total other other).elim id id
            · exact otherLeads first inOthers
          have heads := same first
          rw [List.filter_cons_of_pos (itself first),
            List.filter_cons_of_pos (tied_iff.mpr ⟨before, after⟩)] at heads
          obtain ⟨isFirst, _⟩ := List.cons.inj heads
          subst isFirst
          congr 1
          apply ih restSorted othersSorted
          intro item
          have whole := same item
          rw [List.filter_cons, List.filter_cons] at whole
          split at whole
          · exact (List.cons.inj whole).2
          · exact whole

end Total

end StableSort

end SourceWeave
