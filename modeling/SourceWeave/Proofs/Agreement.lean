import SourceWeave.Proofs.Listings

/-!
Which entries go together in one table. An entry is refused if its content differs from the one
that is held, and what is held is what came first. An entry of unknown content that comes first
therefore hides that the contents of later ones differ; where none does, entries go together
exactly if no two of them conflict.
-/

set_option autoImplicit false

namespace SourceWeave

theorem failure?_map {ε α β : Type} (convert : α → β) (action : Except ε α) :
    failure? (action.map convert) = failure? action := by
  cases action <;> rfl

theorem map_eq_of_failure? {ε α β : Type} {first : Except ε α} {second : Except ε β}
    {convert : α → β} (sameFailure : failure? first = failure? second)
    (sameResult : ∀ left right, first = .ok left → second = .ok right → convert left = right) :
    first.map convert = second := by
  cases first with
  | error cause =>
      rw [failure?_eq_some_iff.mp sameFailure.symm]
      rfl
  | ok left =>
      obtain ⟨right, isRight⟩ := failure?_eq_none_iff.mp sameFailure.symm
      rw [isRight, Except.map, sameResult left right rfl isRight]

namespace SourceRegistry

def receive (table : SourceRegistry) (given : List SourceRecord) :
    Except MappingError SourceRegistry :=
  (table.addAll given).map Prod.snd

variable {table after : SourceRegistry} {given : List SourceRecord}

theorem receive_cons (table : SourceRegistry) (entry : SourceRecord) (rest : List SourceRecord) :
    table.receive (entry :: rest) =
      table.addRecord entry >>= fun added => added.2.receive rest := by
  rw [receive, addAll]
  cases table.addRecord entry with
  | error cause => rfl
  | ok added =>
      rw [ok_bind, ok_bind]
      change Except.map Prod.snd (added.2.addAll rest >>= fun further =>
        Except.ok (added.1 :: further.1, further.2)) = (added.2.addAll rest).map Prod.snd
      cases added.2.addAll rest <;> rfl

theorem receive_append (table : SourceRegistry) (front back : List SourceRecord) :
    table.receive (front ++ back) = table.receive front >>= fun next => next.receive back := by
  induction front generalizing table with
  | nil => rfl
  | cons entry rest ih =>
      rw [List.cons_append, receive_cons, receive_cons]
      cases table.addRecord entry with
      | error cause => rfl
      | ok added => exact ih added.2

theorem failure?_receive (table : SourceRegistry) (given : List SourceRecord) :
    failure? (table.receive given) = failure? (table.addAll given) :=
  failure?_map _ _

theorem receive_eq_ok (received : table.receive given = .ok after) :
    after.entries.toList = settle table.entries.toList given := by
  rw [receive] at received
  cases added : table.addAll given with
  | error cause =>
      rw [added] at received
      cases received
  | ok result =>
      rw [added] at received
      cases received
      exact (addAll_eq_ok added).1

theorem eq_of_entries {left right : SourceRegistry}
    (same : left.entries.toList = right.entries.toList) : left = right := by
  cases left
  cases right
  exact congrArg SourceRegistry.mk (Array.toList_inj.mp same)

/-! ### What is refused -/

theorem conflicts_eq_false_iff {held given : Option String} :
    conflicts held given = false ↔
      ∀ left right, held = some left → given = some right → left = right := by
  cases held <;> cases given <;> simp [conflicts]

theorem conflicts_self (content : Option String) : conflicts content content = false := by
  cases content <;> simp [conflicts]

theorem conflicts_trans {held left right : Option String} (known : held ≠ none)
    (withLeft : conflicts held left = false) (withRight : conflicts held right = false) :
    conflicts left right = false := by
  obtain ⟨content, isContent⟩ := Option.ne_none_iff_exists'.mp known
  rw [conflicts_eq_false_iff] at withLeft withRight ⊢
  intro first second isFirst isSecond
  rw [← withLeft content first isContent isFirst, ← withRight content second isContent isSecond]

theorem eq_of_identity {entries : List SourceRecord}
    (distinct : (entries.map SourceRecord.identity).Nodup) {left right : SourceRecord}
    (inLeft : left ∈ entries) (inRight : right ∈ entries)
    (same : left.identity = right.identity) : left = right :=
  List.inj_on_of_nodup_map distinct inLeft inRight same

theorem failure?_addRecord_eq_none_iff
    (distinct : (table.entries.toList.map SourceRecord.identity).Nodup) {entry : SourceRecord} :
    failure? (table.addRecord entry) = none ↔
      ∀ held ∈ table.entries.toList, held.identity = entry.identity →
        conflicts held.content entry.settled.content = false := by
  cases found : table.indexOf? entry.identity with
  | none =>
      have unknown := indexOf?_eq_none_iff.mp found
      refine iff_of_true (failure?_add_of_unknown unknown) ?_
      intro held inTable same
      exact absurd (List.mem_map.mpr ⟨held, inTable, same⟩) unknown
  | some index =>
      obtain ⟨held, isHeld, sameIdentity⟩ := Option.map_eq_some_iff.mp (identity_of_indexOf? found)
      have inTable : held ∈ table.entries.toList := by
        rw [← Array.getElem?_toList] at isHeld
        exact List.mem_of_getElem? isHeld
      have outcome : failure? (table.addRecord entry) = none ↔
          conflicts held.content entry.settled.content = false := by
        rw [addRecord, add, found]
        simp only [isHeld, Option.bind_some]
        change failure? (if conflicts held.content entry.settled.content = true then _ else _) =
          none ↔ _
        cases conflicts held.content entry.settled.content <;> simp [failure?]
      rw [outcome]
      constructor
      · intro agrees other inOther same
        rw [eq_of_identity distinct inOther inTable (same.trans sameIdentity.symm)]
        exact agrees
      · intro agrees
        exact agrees held inTable sameIdentity

theorem subset_settle (held given : List SourceRecord) : held ⊆ settle held given := by
  intro entry member
  obtain ⟨more, whole⟩ := exists_enlist_eq_append SourceRecord.identity held
    (given.map SourceRecord.settled)
  rw [settle, whole]
  exact List.mem_append_left more member

theorem settle_cons (held : List SourceRecord) (entry : SourceRecord) (rest : List SourceRecord) :
    settle held (entry :: rest) = settle (settle held [entry]) rest :=
  settle_append held [entry] rest

theorem failure?_addRecord_eq_none_iff_settle
    (distinct : (table.entries.toList.map SourceRecord.identity).Nodup) (entry : SourceRecord)
    (rest : List SourceRecord) :
    failure? (table.addRecord entry) = none ↔
      ∀ held ∈ settle table.entries.toList (entry :: rest), held.identity = entry.identity →
        conflicts held.content entry.settled.content = false := by
  rw [failure?_addRecord_eq_none_iff distinct]
  constructor
  · intro agrees held inWhole same
    have distinctWhole := settle_nodup distinct (entry :: rest)
    have listed : entry.identity ∈
        (settle table.entries.toList [entry]).map SourceRecord.identity :=
      (mem_keys_enlist _).mpr (Or.inr List.mem_cons_self)
    obtain ⟨other, inFirst, otherSame⟩ := List.mem_map.mp listed
    have otherInWhole : other ∈ settle table.entries.toList (entry :: rest) := by
      rw [settle_cons]
      exact subset_settle _ rest inFirst
    rw [eq_of_identity distinctWhole inWhole otherInWhole (same.trans otherSame.symm)]
    rcases mem_or_mem_of_mem_enlist _ inFirst with inTable | isEntry
    · exact agrees other inTable otherSame
    · rw [List.map_singleton, List.mem_singleton] at isEntry
      rw [isEntry]
      exact conflicts_self _
  · intro agrees held inTable same
    exact agrees held (subset_settle _ (entry :: rest) inTable) same

theorem failure?_receive_eq_none_iff
    (distinct : (table.entries.toList.map SourceRecord.identity).Nodup) :
    failure? (table.receive given) = none ↔
      ∀ entry ∈ given, ∀ held ∈ settle table.entries.toList given,
        held.identity = entry.identity → conflicts held.content entry.settled.content = false := by
  induction given generalizing table with
  | nil => exact iff_of_true rfl (fun entry impossible => nomatch impossible)
  | cons entry rest ih =>
      rw [receive_cons, List.forall_mem_cons,
        ← failure?_addRecord_eq_none_iff_settle distinct entry rest, settle_cons]
      cases added : table.addRecord entry with
      | error cause => simp [failure?, bind, Except.bind]
      | ok result =>
          have grown := (addRecord_eq_ok added).1
          have distinctNext := settle_nodup distinct [entry]
          rw [← grown] at distinctNext ⊢
          rw [ok_bind, ih distinctNext]
          simp [failure?]

/-! ### Agreement -/

def Agree (entries : List SourceRecord) : Prop :=
  ∀ left ∈ entries, ∀ right ∈ entries, left.identity = right.identity →
    conflicts left.content right.content = false

instance (entries : List SourceRecord) : Decidable (Agree entries) :=
  inferInstanceAs (Decidable (∀ left ∈ entries, ∀ right ∈ entries, _ → _))

/-- A source whose content is unknown in one entry has no different contents in others. -/
def Decided (entries : List SourceRecord) : Prop :=
  ∀ blank ∈ entries, blank.content = none →
    Agree (entries.filter fun entry => entry.identity = blank.identity)

instance (entries : List SourceRecord) : Decidable (Decided entries) :=
  inferInstanceAs (Decidable (∀ blank ∈ entries, _ → _))

variable {fewer all entries : List SourceRecord}

theorem Agree.subset (agree : Agree all) (subset : fewer ⊆ all) : Agree fewer :=
  fun left inLeft right inRight => agree left (subset inLeft) right (subset inRight)

theorem Decided.conflicts_eq_false (decided : Decided entries) {blank left right : SourceRecord}
    (inBlank : blank ∈ entries) (isBlank : blank.content = none) (inLeft : left ∈ entries)
    (inRight : right ∈ entries) (leftSame : left.identity = blank.identity)
    (rightSame : right.identity = blank.identity) :
    conflicts left.content right.content = false := by
  refine decided blank inBlank isBlank left ?_ right ?_ (leftSame.trans rightSame.symm)
  · exact List.mem_filter.mpr ⟨inLeft, decide_eq_true leftSame⟩
  · exact List.mem_filter.mpr ⟨inRight, decide_eq_true rightSame⟩

theorem Decided.subset (decided : Decided all) (subset : fewer ⊆ all) : Decided fewer := by
  intro blank inBlank isBlank
  refine (decided blank (subset inBlank) isBlank).subset ?_
  intro entry member
  obtain ⟨inFewer, same⟩ := List.mem_filter.mp member
  exact List.mem_filter.mpr ⟨subset inFewer, same⟩

theorem agree_of_nodup (distinct : (entries.map SourceRecord.identity).Nodup) : Agree entries := by
  intro left inLeft right inRight same
  rw [eq_of_identity distinct inLeft inRight same]
  exact conflicts_self _

/-- Some of the entries, one at least for every source, which agrees with what all say of it. -/
structure Represents (fewer all : List SourceRecord) : Prop where
  subset : fewer ⊆ all
  agreeing : ∀ entry ∈ all, ∃ held ∈ fewer, held.identity = entry.identity ∧
    conflicts held.content entry.content = false

namespace Represents

theorem refl (entries : List SourceRecord) : Represents entries entries :=
  ⟨List.Subset.refl entries, fun entry member => ⟨entry, member, rfl, conflicts_self _⟩⟩

theorem append {front back others : List SourceRecord} (first : Represents front all)
    (second : Represents back others) : Represents (front ++ back) (all ++ others) where
  subset := List.append_subset.mpr
    ⟨fun _ member => List.mem_append_left others (first.subset member),
      fun _ member => List.mem_append_right all (second.subset member)⟩
  agreeing := by
    intro entry member
    rcases List.mem_append.mp member with inFirst | inSecond
    · obtain ⟨held, inFront, agrees⟩ := first.agreeing entry inFirst
      exact ⟨held, List.mem_append_left back inFront, agrees⟩
    · obtain ⟨held, inBack, agrees⟩ := second.agreeing entry inSecond
      exact ⟨held, List.mem_append_right front inBack, agrees⟩

theorem agree (represents : Represents fewer all) (decided : Decided all) (agree : Agree fewer) :
    Agree all := by
  intro left inLeft right inRight same
  obtain ⟨leftHeld, inLeftHeld, leftSame, withLeft⟩ := represents.agreeing left inLeft
  obtain ⟨rightHeld, inRightHeld, rightSame, withRight⟩ := represents.agreeing right inRight
  have between : conflicts leftHeld.content rightHeld.content = false :=
    agree leftHeld inLeftHeld rightHeld inRightHeld
      (leftSame.trans (same.trans rightSame.symm))
  by_cases leftBlank : leftHeld.content = none
  · exact decided.conflicts_eq_false (represents.subset inLeftHeld) leftBlank inLeft inRight
      leftSame.symm (same.symm.trans leftSame.symm)
  · by_cases rightBlank : rightHeld.content = none
    · exact decided.conflicts_eq_false (represents.subset inRightHeld) rightBlank inLeft inRight
        (same.trans rightSame.symm) rightSame.symm
    · have withOther : conflicts rightHeld.content left.content = false :=
        conflicts_trans leftBlank between withLeft
      exact conflicts_trans rightBlank withOther withRight

theorem trans {middle : List SourceRecord} (first : Represents fewer middle)
    (second : Represents middle all) (agree : Agree all) : Represents fewer all where
  subset := List.Subset.trans first.subset second.subset
  agreeing := by
    intro entry member
    obtain ⟨other, inMiddle, otherSame, _⟩ := second.agreeing entry member
    obtain ⟨held, inFewer, heldSame, _⟩ := first.agreeing other inMiddle
    have same := heldSame.trans otherSame
    have inAll := second.subset (first.subset inFewer)
    exact ⟨held, inFewer, same, agree held inAll entry member same⟩

end Represents

private theorem empty_distinct :
    ((({} : SourceRegistry).entries.toList).map SourceRecord.identity).Nodup :=
  List.nodup_nil

theorem Settled.settle_nil_subset (settled : Settled entries) :
    SourceRegistry.settle [] entries ⊆ entries := by
  intro entry member
  rcases mem_or_mem_of_mem_enlist _ member with impossible | inEntries
  · cases impossible
  · rwa [settled.map_settled] at inEntries

theorem represents_of_receive (settled : Settled entries)
    (together : failure? (({} : SourceRegistry).receive entries) = none) :
    Represents (settle [] entries) entries where
  subset := settled.settle_nil_subset
  agreeing := by
    intro entry member
    have listed : entry.identity ∈ (settle [] entries).map SourceRecord.identity := by
      apply (mem_keys_enlist _).mpr
      rw [settled.map_settled]
      exact Or.inr (List.mem_map_of_mem member)
    obtain ⟨held, inTable, same⟩ := List.mem_map.mp listed
    have agrees := (failure?_receive_eq_none_iff empty_distinct).mp together entry member held
      inTable same
    rw [settled entry member] at agrees
    exact ⟨held, inTable, same, agrees⟩

theorem Agree.failure?_receive (agree : Agree entries) (settled : Settled entries) :
    failure? (({} : SourceRegistry).receive entries) = none := by
  apply (failure?_receive_eq_none_iff empty_distinct).mpr
  intro entry member held inTable same
  rw [settled entry member]
  exact agree held (settled.settle_nil_subset inTable) entry member same

/-- Entries go together exactly if they agree, unless one of unknown content hides that others
differ. -/
theorem failure?_receive_eq_none_iff_agree (settled : Settled entries) (decided : Decided entries) :
    failure? (({} : SourceRegistry).receive entries) = none ↔ Agree entries := by
  constructor
  · intro together
    have represents := represents_of_receive settled together
    exact represents.agree decided (agree_of_nodup (settle_nodup empty_distinct entries))
  · intro agree
    exact agree.failure?_receive settled

/-- Where nothing is hidden, representatives that go together show that all agree. -/
theorem Represents.agree_of_receive (represents : Represents fewer all) (settled : Settled fewer)
    (decided : Decided all)
    (together : failure? (({} : SourceRegistry).receive fewer) = none) : Agree all := by
  have fewerDecided := decided.subset represents.subset
  exact represents.agree decided
    ((failure?_receive_eq_none_iff_agree settled fewerDecided).mp together)

end SourceRegistry

end SourceWeave
