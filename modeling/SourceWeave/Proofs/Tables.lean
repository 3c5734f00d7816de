import Mathlib.Data.List.Nodup
import SourceWeave.Registry

/-!
Tables as what their history leaves. A table lists what it was given, every key
once and in the order of first mention, so that entering a table that was made
elsewhere is the same as entering all that it was made from.
-/

set_option autoImplicit false

namespace SourceWeave

theorem ok_bind {ε α β : Type} (value : α) (next : α → Except ε β) :
    Except.ok value >>= next = next value :=
  rfl

theorem exists_of_bind_eq_ok {ε α β : Type} {action : Except ε α} {next : α → Except ε β}
    {result : β} (succeeds : action >>= next = .ok result) :
    ∃ value, action = .ok value ∧ next value = .ok result := by
  cases action with
  | error cause => cases succeeds
  | ok value => exact ⟨value, rfl, succeeds⟩

theorem bind_eq_ok_iff {ε α β : Type} {action : Except ε α} {next : α → Except ε β}
    {result : β} :
    action >>= next = .ok result ↔ ∃ value, action = .ok value ∧ next value = .ok result := by
  constructor
  · exact exists_of_bind_eq_ok
  · intro succeeds
    obtain ⟨value, isValue, isResult⟩ := succeeds
    rw [isValue]
    exact isResult

theorem exists_of_isOk {ε α : Type} {outcome : Except ε α} (succeeds : outcome.isOk = true) :
    ∃ value, outcome = .ok value := by
  cases outcome with
  | error cause => cases succeeds
  | ok value => exact ⟨value, rfl⟩

theorem exists_of_map_toOption {ε α β : Type} {outcome : Except ε α} {view : α → β} {seen : β}
    (viewed : outcome.toOption.map view = some seen) :
    ∃ result, outcome = .ok result ∧ view result = seen := by
  cases outcome with
  | error cause => cases viewed
  | ok result => exact ⟨result, rfl, Option.some.inj viewed⟩

section Enlist

variable {α β : Type} [DecidableEq β] (key : α → β)

/-- Adds items behind those that are held, except those whose key is there. -/
def enlist (held : List α) : List α → List α
  | [] => held
  | item :: rest =>
      if key item ∈ held.map key then enlist held rest else enlist (held ++ [item]) rest

theorem enlist_append (held front back : List α) :
    enlist key held (front ++ back) = enlist key (enlist key held front) back := by
  induction front generalizing held with
  | nil => rfl
  | cons item rest ih =>
      rw [List.cons_append, enlist, enlist]
      split
      · exact ih held
      · exact ih (held ++ [item])

theorem exists_enlist_eq_append (held items : List α) :
    ∃ more, enlist key held items = held ++ more := by
  induction items generalizing held with
  | nil => exact ⟨[], (List.append_nil held).symm⟩
  | cons item rest ih =>
      unfold enlist
      split
      · exact ih held
      · obtain ⟨more, whole⟩ := ih (held ++ [item])
        exact ⟨item :: more, by rw [whole, List.append_assoc]; rfl⟩

theorem mem_or_mem_of_mem_enlist {held items : List α} {item : α}
    (member : item ∈ enlist key held items) : item ∈ held ∨ item ∈ items := by
  induction items generalizing held with
  | nil => exact Or.inl member
  | cons first rest ih =>
      unfold enlist at member
      split at member
      · exact (ih member).imp_right (List.mem_cons_of_mem first)
      · rcases ih member with inHeld | inRest
        · rcases List.mem_append.mp inHeld with before | isFirst
          · exact Or.inl before
          · exact Or.inr (List.mem_singleton.mp isFirst ▸ List.mem_cons_self)
        · exact Or.inr (List.mem_cons_of_mem first inRest)

theorem mem_of_enlist_behind {held items : List α} {index : Nat} {item : α}
    (behind : held.length ≤ index) (found : (enlist key held items)[index]? = some item) :
    item ∈ items := by
  induction items generalizing held with
  | nil =>
      rw [enlist, List.getElem?_eq_none behind] at found
      cases found
  | cons first rest ih =>
      unfold enlist at found
      split at found
      · exact List.mem_cons_of_mem first (ih behind found)
      · by_cases further : held.length < index
        · have behindFirst : (held ++ [first]).length ≤ index := by
            rw [List.length_append]
            exact further
          exact List.mem_cons_of_mem first (ih behindFirst found)
        · have atEnd : index = held.length := by omega
          obtain ⟨more, whole⟩ := exists_enlist_eq_append key (held ++ [first]) rest
          rw [whole, List.append_assoc, atEnd, List.getElem?_append_right (Nat.le_refl _)] at found
          simp only [Nat.sub_self, List.singleton_append, List.getElem?_cons_zero] at found
          exact Option.some.inj found ▸ List.mem_cons_self

theorem mem_keys_enlist {held items : List α} {wanted : β} :
    wanted ∈ (enlist key held items).map key ↔
      wanted ∈ held.map key ∨ wanted ∈ items.map key := by
  induction items generalizing held with
  | nil => simp [enlist]
  | cons item rest ih =>
      rw [enlist, List.map_cons, List.mem_cons]
      split
      · rename_i known
        rw [ih]
        constructor
        · exact Or.imp_right Or.inr
        · intro listed
          rcases listed with inHeld | isItem | inRest
          · exact Or.inl inHeld
          · exact Or.inl (isItem ▸ known)
          · exact Or.inr inRest
      · rw [ih, List.map_append, List.mem_append, List.map_singleton, List.mem_singleton,
          or_assoc]

theorem enlist_nodup {held : List α} (distinct : (held.map key).Nodup) (items : List α) :
    ((enlist key held items).map key).Nodup := by
  induction items generalizing held with
  | nil => exact distinct
  | cons item rest ih =>
      unfold enlist
      split
      · exact ih distinct
      · rename_i unknown
        apply ih
        rw [List.map_append, List.map_singleton]
        apply List.nodup_append.mpr
        refine ⟨distinct, List.nodup_singleton _, ?_⟩
        intro known inHeld other isItem same
        rw [List.mem_singleton.mp isItem] at same
        exact unknown (same ▸ inHeld)

theorem enlist_of_known {held items : List α}
    (known : ∀ item ∈ items, key item ∈ held.map key) : enlist key held items = held := by
  induction items with
  | nil => rfl
  | cons item rest ih =>
      rw [enlist, if_pos (known item List.mem_cons_self)]
      exact ih fun other member => known other (List.mem_cons_of_mem item member)

theorem enlist_of_distinct {held items : List α} (distinct : ((held ++ items).map key).Nodup) :
    enlist key held items = held ++ items := by
  induction items generalizing held with
  | nil => exact (List.append_nil held).symm
  | cons item rest ih =>
      have unknown : key item ∉ held.map key := by
        rw [List.map_append] at distinct
        intro known
        exact (List.nodup_append.mp distinct).2.2 _ known _ List.mem_cons_self rfl
      rw [List.append_cons] at distinct
      rw [enlist, if_neg unknown, ih distinct, List.append_assoc, List.singleton_append]

theorem enlist_again (held items : List α) :
    enlist key (enlist key held items) items = enlist key held items := by
  apply enlist_of_known
  intro item member
  exact (mem_keys_enlist key).mpr (Or.inr (List.mem_map_of_mem member))

theorem enlist_enlist (held front items : List α) :
    enlist key held (enlist key front items) = enlist key (enlist key held front) items := by
  induction items generalizing front with
  | nil => rfl
  | cons item rest ih =>
      rw [enlist]
      split
      · -- What `front` holds is held once `front` has been entered.
        rename_i known
        have alsoKnown : key item ∈ (enlist key held front).map key :=
          (mem_keys_enlist key).mpr (Or.inr known)
        rw [ih, enlist, if_pos alsoKnown]
      · rw [ih, enlist_append, ← enlist_append, List.singleton_append]

/-- What is entered behind some items are the first of every key that they do not have. -/
theorem enlist_eq_append_eraseDupsBy [BEq β] [LawfulBEq β] (held items : List α) :
    enlist key held items =
      held ++ (items.filter fun item => key item ∉ held.map key).eraseDupsBy
        fun left right => key left == key right := by
  induction items generalizing held with
  | nil => exact (List.append_nil held).symm
  | cons item rest ih =>
      rw [enlist, List.filter_cons]
      split
      · rename_i known
        rw [ih, if_neg (by simp [known])]
      · rename_i unknown
        have others : rest.filter (fun other => key other ∉ (held ++ [item]).map key) =
            (rest.filter fun other => key other ∉ held.map key).filter fun other =>
              decide ((key other == key item) = false) := by
          rw [List.filter_filter]
          apply List.filter_congr
          intro other _
          rw [Bool.eq_iff_iff]
          simp [and_comm]
        rw [ih, others, if_pos (by simp [unknown]), List.eraseDupsBy_cons, List.append_assoc,
          List.singleton_append]

end Enlist

theorem enlist_nil_eq_eraseDups {α : Type} [DecidableEq α] [BEq α] [LawfulBEq α]
    (items : List α) :
    enlist id [] items = items.eraseDups := by
  rw [enlist_eq_append_eraseDupsBy]
  simp [List.eraseDups]

namespace SourceRecord

def settled (entry : SourceRecord) : SourceRecord :=
  { entry with content := if entry.identity.isSome then entry.content else none }

@[simp]
theorem settled_settled (entry : SourceRecord) : entry.settled.settled = entry.settled := by
  cases entry with
  | mk identity content => cases identity <;> rfl

def firsts (entries : List SourceRecord) : List SourceRecord :=
  (entries.map settled).eraseDupsBy fun left right => left.identity == right.identity

end SourceRecord

namespace SourceRegistry

def settle (held given : List SourceRecord) : List SourceRecord :=
  enlist SourceRecord.identity held (given.map SourceRecord.settled)

theorem settle_nil (given : List SourceRecord) :
    settle [] given = SourceRecord.firsts given := by
  rw [settle, enlist_eq_append_eraseDupsBy]
  simp [SourceRecord.firsts]

theorem settle_append (held front back : List SourceRecord) :
    settle held (front ++ back) = settle (settle held front) back := by
  rw [settle, List.map_append, enlist_append]
  rfl

theorem settled_of_mem_settle {held given : List SourceRecord} {entry : SourceRecord}
    (heldSettled : ∀ other ∈ held, other.settled = other)
    (member : entry ∈ settle held given) : entry.settled = entry := by
  rcases mem_or_mem_of_mem_enlist _ member with inHeld | inGiven
  · exact heldSettled entry inHeld
  · obtain ⟨other, _, isEntry⟩ := List.mem_map.mp inGiven
    rw [← isEntry, SourceRecord.settled_settled]

/-- A table that was made elsewhere brings what it was made from. -/
theorem settle_settle (held given : List SourceRecord) :
    settle held (settle [] given) = settle held given := by
  have unchanged : (settle [] given).map SourceRecord.settled = settle [] given := by
    have pointwise : ∀ entry ∈ settle [] given, entry.settled = id entry := by
      intro entry member
      exact settled_of_mem_settle (fun other impossible => by cases impossible) member
    rw [List.map_congr_left pointwise, List.map_id]
  rw [settle, unchanged, settle, enlist_enlist]
  rfl

theorem settle_again (held given : List SourceRecord) :
    settle (settle held given) given = settle held given :=
  enlist_again _ _ _

theorem settle_nodup {held : List SourceRecord} (distinct : (held.map SourceRecord.identity).Nodup)
    (given : List SourceRecord) : ((settle held given).map SourceRecord.identity).Nodup :=
  enlist_nodup _ distinct _

theorem settle_of_known {held given : List SourceRecord}
    (known : ∀ entry ∈ given, entry.identity ∈ held.map SourceRecord.identity) :
    settle held given = held := by
  apply enlist_of_known
  intro entry member
  obtain ⟨other, inGiven, isEntry⟩ := List.mem_map.mp member
  rw [← isEntry]
  exact known other inGiven

theorem settle_of_distinct {given : List SourceRecord}
    (settled : ∀ entry ∈ given, entry.settled = entry)
    (distinct : (given.map SourceRecord.identity).Nodup) : settle [] given = given := by
  have unchanged : given.map SourceRecord.settled = given.map id := List.map_congr_left settled
  rw [settle, unchanged, List.map_id]
  exact enlist_of_distinct _ distinct

/-! ### What adding does -/

theorem indexOf?_eq_none_iff {table : SourceRegistry} {identity : Option String} :
    table.indexOf? identity = none ↔ identity ∉ table.entries.toList.map SourceRecord.identity := by
  rw [indexOf?, Array.findIdx?_eq_none_iff]
  simp

theorem identity_of_indexOf? {table : SourceRegistry} {identity : Option String} {index : Nat}
    (found : table.indexOf? identity = some index) :
    (table.entries[index]?).map SourceRecord.identity = some identity := by
  rw [indexOf?, Array.findIdx?_eq_some_iff_getElem] at found
  obtain ⟨within, same, _⟩ := found
  rw [Array.getElem?_eq_getElem within, Option.map_some]
  exact congrArg some (eq_of_beq same)

theorem add_eq_ok {table after : SourceRegistry} {identity content : Option String} {index : Nat}
    (added : table.add identity content = .ok (index, after)) :
    after.entries.toList = settle table.entries.toList [⟨identity, content⟩] ∧
      (after.entries[index]?).map SourceRecord.identity = some identity := by
  unfold add at added
  cases found : table.indexOf? identity with
  | some held =>
      rw [found] at added
      by_cases conflict : conflicts (table.entries[held]?.bind (·.content))
          (if identity.isSome then content else none) = true
      · simp only [if_pos conflict] at added
        cases added
      · simp only [if_neg conflict] at added
        cases added
        have known : identity ∈ table.entries.toList.map SourceRecord.identity := by
          apply Classical.byContradiction
          intro unknown
          rw [indexOf?_eq_none_iff.mpr unknown] at found
          cases found
        refine ⟨(settle_of_known ?_).symm, identity_of_indexOf? found⟩
        intro entry member
        rw [List.mem_singleton.mp member]
        exact known
  | none =>
      rw [found] at added
      cases added
      have unknown : (SourceRecord.mk identity content).settled.identity ∉
          table.entries.toList.map SourceRecord.identity := indexOf?_eq_none_iff.mp found
      constructor
      · rw [Array.toList_push, settle, List.map_singleton, enlist, if_neg unknown]
        rfl
      · simp

theorem addRecord_eq_ok {table after : SourceRegistry} {entry : SourceRecord} {index : Nat}
    (added : table.addRecord entry = .ok (index, after)) :
    after.entries.toList = settle table.entries.toList [entry] ∧
      (after.entries[index]?).map SourceRecord.identity = some entry.identity :=
  add_eq_ok added

theorem getElem?_of_settle {before after : SourceRegistry} {given : List SourceRecord}
    (grown : after.entries.toList = settle before.entries.toList given) {index : Nat}
    {entry : SourceRecord} (found : before.entries[index]? = some entry) :
    after.entries[index]? = some entry := by
  obtain ⟨more, whole⟩ := exists_enlist_eq_append SourceRecord.identity before.entries.toList
    (given.map SourceRecord.settled)
  rw [← Array.getElem?_toList] at found ⊢
  rw [grown, settle, whole, List.getElem?_append_left (List.getElem?_eq_some_iff.mp found).1]
  exact found

theorem size_le_of_settle {before after : SourceRegistry}
    {given : List SourceRecord}
    (grown : after.entries.toList = settle before.entries.toList given) :
    before.entries.size ≤ after.entries.size := by
  obtain ⟨more, whole⟩ := exists_enlist_eq_append SourceRecord.identity before.entries.toList
    (given.map SourceRecord.settled)
  rw [← Array.length_toList, ← Array.length_toList, grown, settle, whole, List.length_append]
  exact Nat.le_add_right _ _

theorem addAll_eq_ok {table after : SourceRegistry} {given : List SourceRecord}
    {indices : List Nat} (added : table.addAll given = .ok (indices, after)) :
    after.entries.toList = settle table.entries.toList given ∧
      List.Forall₂ (fun entry index =>
        (after.entries[index]?).map SourceRecord.identity = some entry.identity) given indices := by
  induction given generalizing table indices with
  | nil =>
      cases added
      exact ⟨rfl, List.Forall₂.nil⟩
  | cons entry rest ih =>
      unfold addAll at added
      obtain ⟨⟨index, middle⟩, first, added⟩ := exists_of_bind_eq_ok added
      obtain ⟨⟨others, last⟩, remaining, added⟩ := exists_of_bind_eq_ok added
      cases added
      obtain ⟨firstGrown, firstKnown⟩ := addRecord_eq_ok first
      obtain ⟨restGrown, restKnown⟩ := ih remaining
      refine ⟨?_, List.Forall₂.cons ?_ restKnown⟩
      · rw [restGrown, firstGrown, ← settle_append, List.singleton_append]
      · cases found : middle.entries[index]? with
        | none =>
            rw [found] at firstKnown
            cases firstKnown
        | some held =>
            rw [found] at firstKnown
            rw [getElem?_of_settle restGrown found]
            exact firstKnown

end SourceRegistry

namespace NameRegistry

theorem add_eq {table after : NameRegistry} {name : String} {index : Nat}
    (added : table.add name = (index, after)) :
    after.names.toList = enlist id table.names.toList [name] ∧ after.names[index]? = some name := by
  unfold add at added
  cases found : table.names.findIdx? (· == name) with
  | some held =>
      rw [found] at added
      cases added
      rw [Array.findIdx?_eq_some_iff_getElem] at found
      obtain ⟨within, same, _⟩ := found
      have isName : table.names[index] = name := eq_of_beq same
      refine ⟨(enlist_of_known id ?_).symm, ?_⟩
      · intro other member
        rw [List.mem_singleton.mp member, List.map_id, Array.mem_toList_iff, id, ← isName]
        exact Array.getElem_mem within
      · rw [Array.getElem?_eq_getElem within, isName]
  | none =>
      rw [found] at added
      cases added
      rw [Array.findIdx?_eq_none_iff] at found
      constructor
      · rw [Array.toList_push, enlist, if_neg]
        · rfl
        · rw [List.map_id, Array.mem_toList_iff]
          intro member
          have different := found name member
          simp at different
      · simp

theorem getElem?_of_enlist {before after : NameRegistry} {given : List String}
    (grown : after.names.toList = enlist id before.names.toList given) {index : Nat}
    {name : String} (found : before.names[index]? = some name) :
    after.names[index]? = some name := by
  obtain ⟨more, whole⟩ := exists_enlist_eq_append id before.names.toList given
  rw [← Array.getElem?_toList] at found ⊢
  rw [grown, whole, List.getElem?_append_left (List.getElem?_eq_some_iff.mp found).1]
  exact found

theorem size_le_of_enlist {before after : NameRegistry} {given : List String}
    (grown : after.names.toList = enlist id before.names.toList given) :
    before.names.size ≤ after.names.size := by
  obtain ⟨more, whole⟩ := exists_enlist_eq_append id before.names.toList given
  rw [← Array.length_toList, ← Array.length_toList, grown, whole, List.length_append]
  exact Nat.le_add_right _ _

theorem addAll_eq {table after : NameRegistry} {given : List String} {indices : List Nat}
    (added : table.addAll given = (indices, after)) :
    after.names.toList = enlist id table.names.toList given ∧
      List.Forall₂ (fun name index => after.names[index]? = some name) given indices := by
  induction given generalizing table indices with
  | nil =>
      cases added
      exact ⟨rfl, List.Forall₂.nil⟩
  | cons name rest ih =>
      rw [addAll] at added
      cases first : table.add name with
      | mk index middle =>
          rw [first] at added
          cases remaining : middle.addAll rest with
          | mk others last =>
              simp only [remaining] at added
              cases added
              obtain ⟨firstGrown, firstKnown⟩ := add_eq first
              obtain ⟨restGrown, restKnown⟩ := ih remaining
              refine ⟨?_, List.Forall₂.cons (getElem?_of_enlist restGrown firstKnown) restKnown⟩
              rw [restGrown, firstGrown, ← enlist_append, List.singleton_append]

end NameRegistry

end SourceWeave
