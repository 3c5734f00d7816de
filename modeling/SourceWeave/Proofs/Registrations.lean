import Mathlib.Data.List.Induction
import SourceWeave.Proofs.Agreement

/-!
Tables as a function of the calls that filled them. A source table lists the identities in the
order in which they were first given, each with what it was given first; a call that goes against
that fails and leaves the table as it was, and every other call has told where the identity stands
in the end. Names are listed likewise, and no call for a name fails.
-/

set_option autoImplicit false

namespace SourceWeave

section Enlist

variable {α β : Type} [DecidableEq β] (key : α → β)

theorem map_enlist (held items : List α) :
    (enlist key held items).map key = enlist id (held.map key) (items.map key) := by
  induction items generalizing held with
  | nil => rfl
  | cons item rest ih =>
      by_cases known : key item ∈ held.map key
      · rw [enlist, if_pos known, List.map_cons, enlist, List.map_id, id, if_pos known, ih]
      · rw [enlist, if_neg known, List.map_cons, enlist, List.map_id, id, if_neg known, ih,
          List.map_append, List.map_singleton]

theorem find?_of_mem_enlist {items : List α} {item : α} (member : item ∈ enlist key [] items) :
    items.find? (fun other => key other = key item) = some item := by
  induction items using List.reverseRecOn with
  | nil => cases member
  | append_singleton front last ih =>
      rw [enlist_append, enlist] at member
      rw [List.find?_append]
      split at member
      · rw [ih member, Option.some_or]
      · rename_i unknown
        rcases List.mem_append.mp member with inFront | isLast
        · rw [ih inFront, Option.some_or]
        · cases List.mem_singleton.mp isLast
          have notBefore : front.find? (fun other => key other = key item) = none := by
            apply List.find?_eq_none.mpr
            intro other inFront same
            apply unknown
            rw [mem_keys_enlist]
            exact Or.inr (List.mem_map.mpr ⟨other, inFront, of_decide_eq_true same⟩)
          rw [notBefore, Option.none_or]
          simp

end Enlist

namespace SourceRecord

/-- The identities of some entries, each once and where it is first given. A missing identity
counts as one. -/
def identities (given : List SourceRecord) : List (Option String) :=
  (given.map identity).eraseDups

/-- The content that came with an identity when it was first given. Without an identity there is
none. -/
def firstContent? (given : List SourceRecord) (identity : Option String) : Option String :=
  (given.find? fun entry => entry.identity = identity).bind (·.settled.content)

/-- The entry names a source that came with a known content when it was first given, and comes
with another known content. -/
def Contradicts (earlier : List SourceRecord) (entry : SourceRecord) : Prop :=
  ∃ name held given, entry.identity = some name ∧ firstContent? earlier (some name) = some held ∧
    entry.content = some given ∧ held ≠ given

theorem firstContent?_append {earlier : List SourceRecord} {identity : Option String}
    {first : SourceRecord}
    (found : earlier.find? (fun entry => entry.identity = identity) = some first)
    (later : List SourceRecord) :
    firstContent? (earlier ++ later) identity = first.settled.content := by
  rw [firstContent?, List.find?_append, found, Option.some_or, Option.bind_some]

theorem firstContent?_append_cons {earlier : List SourceRecord} {entry : SourceRecord}
    (unknown : earlier.find? (fun other => other.identity = entry.identity) = none)
    (later : List SourceRecord) :
    firstContent? (earlier ++ entry :: later) entry.identity = entry.settled.content := by
  have first : (entry :: later).find? (fun other => other.identity = entry.identity) =
      some entry :=
    List.find?_cons_of_pos (decide_eq_true rfl)
  rw [firstContent?, List.find?_append, unknown, Option.none_or, first, Option.bind_some]

theorem firstContent?_of_unknown {earlier : List SourceRecord} {identity : Option String}
    (unknown : identity ∉ earlier.map SourceRecord.identity) :
    firstContent? earlier identity = none := by
  rw [firstContent?, List.find?_eq_none.mpr, Option.bind_none]
  intro entry member same
  exact unknown (List.mem_map.mpr ⟨entry, member, of_decide_eq_true same⟩)

theorem contradicts_iff {earlier : List SourceRecord} {entry : SourceRecord} :
    Contradicts earlier entry ↔
      SourceRegistry.conflicts (firstContent? earlier entry.identity) entry.settled.content =
        true := by
  rcases entry with ⟨identity, content⟩
  cases identity with
  | none => simp [Contradicts, settled, SourceRegistry.conflicts]
  | some name =>
      cases content with
      | none => simp [Contradicts, settled, SourceRegistry.conflicts]
      | some given =>
          cases first : firstContent? earlier (some name) with
          | none => simp [Contradicts, SourceRegistry.conflicts, first]
          | some held => simp [Contradicts, settled, SourceRegistry.conflicts, first]

theorem contradicts_known_iff {earlier : List SourceRecord} {name given : String} :
    Contradicts earlier ⟨some name, some given⟩ ↔
      ∃ held, firstContent? earlier (some name) = some held ∧ held ≠ given := by
  simp [Contradicts]

instance (earlier : List SourceRecord) (entry : SourceRecord) :
    Decidable (Contradicts earlier entry) :=
  decidable_of_iff _ contradicts_iff.symm

end SourceRecord

namespace SourceRegistry

open SourceRecord (identities firstContent? Contradicts)

theorem map_identity_settle_nil (given : List SourceRecord) :
    (settle [] given).map SourceRecord.identity = identities given := by
  calc (settle [] given).map SourceRecord.identity
      = enlist id [] ((given.map SourceRecord.settled).map SourceRecord.identity) :=
        map_enlist _ _ _
    _ = enlist id [] (given.map SourceRecord.identity) := by
        rw [List.map_map]
        rfl
    _ = identities given := enlist_nil_eq_eraseDups _

theorem identities_nodup (given : List SourceRecord) : (identities given).Nodup := by
  rw [← map_identity_settle_nil]
  exact settle_nodup (by simp) given

theorem idxOf_identities {table : SourceRegistry} {given : List SourceRecord}
    (filled : table.entries.toList = settle [] given) {identity : Option String} {index : Nat}
    (found : (table.entries[index]?).map SourceRecord.identity = some identity)
    (later : List SourceRecord) : (identities (given ++ later)).idxOf identity = index := by
  rcases exists_enlist_eq_append SourceRecord.identity (settle [] given)
    (later.map SourceRecord.settled) with ⟨more, grown⟩
  have whole : settle [] (given ++ later) = settle [] given ++ more :=
    (settle_append [] given later).trans grown
  have stands : (identities (given ++ later))[index]? = some identity := by
    rw [← Array.getElem?_toList, filled, ← List.getElem?_map] at found
    rw [← map_identity_settle_nil, whole, List.map_append,
      List.getElem?_append_left (List.getElem?_eq_some_iff.mp found).1, found]
  rcases List.getElem?_eq_some_iff.mp stands with ⟨within, isIdentity⟩
  rw [← isIdentity]
  exact (identities_nodup _).idxOf_getElem index within

theorem content_of_mem_settle_nil {given : List SourceRecord} {entry : SourceRecord}
    (member : entry ∈ settle [] given) :
    entry.content = firstContent? given entry.identity := by
  have found := find?_of_mem_enlist SourceRecord.identity member
  rw [List.find?_map] at found
  rcases Option.map_eq_some_iff.mp found with ⟨first, isFirst, isEntry⟩
  have firstGiven : given.find? (fun other => other.identity = entry.identity) = some first :=
    isFirst
  rw [firstContent?, firstGiven, Option.bind_some, isEntry]

/-- The table lists every identity where it was first given, with what it was given. -/
theorem settle_nil_eq (given : List SourceRecord) :
    settle [] given =
      (identities given).map fun identity => ⟨identity, firstContent? given identity⟩ := by
  have restored : ∀ entry ∈ settle [] given,
      SourceRecord.mk entry.identity (firstContent? given entry.identity) = id entry := by
    intro entry member
    rw [← content_of_mem_settle_nil member]
    rfl
  rw [← map_identity_settle_nil, List.map_map]
  exact ((List.map_congr_left restored).trans (List.map_id _)).symm

/-! ### Calls -/

/-- A call on a table and the table behind it, which stays as it was if the call fails. -/
def attempt (table : SourceRegistry) (entry : SourceRecord) :
    Except MappingError Nat × SourceRegistry :=
  match table.addRecord entry with
  | .ok (index, grown) => (.ok index, grown)
  | .error cause => (.error cause, table)

theorem addRecord_eq_error {table : SourceRegistry} {entry : SourceRecord} {cause : MappingError}
    (refused : table.addRecord entry = .error cause) :
    entry.identity ∈ table.entries.toList.map SourceRecord.identity ∧
      ∃ name, entry.identity = some name ∧ cause = .identityConflict name := by
  rcases entry with ⟨identity, content⟩
  rw [addRecord, add] at refused
  cases found : table.indexOf? identity with
  | none =>
      rw [found] at refused
      cases refused
  | some index =>
      constructor
      · apply Classical.byContradiction
        intro unknown
        rw [indexOf?_eq_none_iff.mpr unknown] at found
        cases found
      · by_cases conflict : conflicts (table.entries[index]?.bind (·.content))
            (if identity.isSome then content else none) = true
        · simp only [found, if_pos conflict] at refused
          cases refused
          cases identity with
          | none => simp [conflicts] at conflict
          | some name => exact ⟨name, rfl, rfl⟩
        · simp only [found, if_neg conflict] at refused
          cases refused

theorem attempt_entries (table : SourceRegistry) (entry : SourceRecord) :
    (table.attempt entry).2.entries.toList = settle table.entries.toList [entry] := by
  rw [attempt]
  cases outcome : table.addRecord entry with
  | ok added => exact (addRecord_eq_ok outcome).1
  | error cause =>
      refine (settle_of_known ?_).symm
      intro other member
      rw [List.mem_singleton.mp member]
      exact (addRecord_eq_error outcome).1

theorem failure?_addRecord_eq_none_iff_history {table : SourceRegistry}
    {earlier : List SourceRecord} (filled : table.entries.toList = settle [] earlier)
    (entry : SourceRecord) :
    failure? (table.addRecord entry) = none ↔ ¬ Contradicts earlier entry := by
  have distinct : (table.entries.toList.map SourceRecord.identity).Nodup := by
    rw [filled, map_identity_settle_nil]
    exact identities_nodup earlier
  rw [failure?_addRecord_eq_none_iff distinct, filled, SourceRecord.contradicts_iff,
    Bool.not_eq_true]
  constructor
  · intro agrees
    by_cases known : entry.identity ∈ (settle [] earlier).map SourceRecord.identity
    · rcases List.mem_map.mp known with ⟨held, inTable, same⟩
      rw [← same, ← content_of_mem_settle_nil inTable]
      exact agrees held inTable same
    · rw [map_identity_settle_nil, identities, List.mem_eraseDups] at known
      rw [SourceRecord.firstContent?_of_unknown known]
      rfl
  · intro agrees held inTable same
    rw [content_of_mem_settle_nil inTable, same]
    exact agrees

def attemptAll (table : SourceRegistry) :
    List SourceRecord → List (Except MappingError Nat) × SourceRegistry
  | [] => ([], table)
  | entry :: rest =>
      let (outcome, next) := table.attempt entry
      let (outcomes, last) := next.attemptAll rest
      (outcome :: outcomes, last)

theorem attemptAll_cons (table : SourceRegistry) (entry : SourceRecord)
    (rest : List SourceRecord) :
    table.attemptAll (entry :: rest) =
      ((table.attempt entry).1 :: ((table.attempt entry).2.attemptAll rest).1,
        ((table.attempt entry).2.attemptAll rest).2) :=
  rfl

theorem attemptAll_append (table : SourceRegistry) (front back : List SourceRecord) :
    table.attemptAll (front ++ back) =
      ((table.attemptAll front).1 ++ ((table.attemptAll front).2.attemptAll back).1,
        ((table.attemptAll front).2.attemptAll back).2) := by
  induction front generalizing table with
  | nil => rfl
  | cons entry rest ih => rw [List.cons_append, attemptAll_cons, attemptAll_cons, ih]; rfl

theorem length_attemptAll (table : SourceRegistry) (calls : List SourceRecord) :
    (table.attemptAll calls).1.length = calls.length := by
  induction calls generalizing table with
  | nil => rfl
  | cons entry rest ih => rw [attemptAll_cons, List.length_cons, List.length_cons, ih]

theorem attemptAll_entries (table : SourceRegistry) (calls : List SourceRecord) :
    (table.attemptAll calls).2.entries.toList = settle table.entries.toList calls := by
  induction calls generalizing table with
  | nil => rfl
  | cons entry rest ih => rw [attemptAll_cons, ih, attempt_entries, ← settle_cons]

theorem getElem?_attemptAll (table : SourceRegistry) (front : List SourceRecord)
    (entry : SourceRecord) (back : List SourceRecord) :
    (table.attemptAll (front ++ entry :: back)).1[front.length]? =
      some ((table.attemptAll front).2.attempt entry).1 := by
  rw [attemptAll_append, List.getElem?_append_right (Nat.le_of_eq (length_attemptAll _ _)),
    length_attemptAll, Nat.sub_self, attemptAll_cons, List.getElem?_cons_zero]

section History

variable {front : List SourceRecord} {entry : SourceRecord}

theorem attemptAll_of_contradicts (contradicts : Contradicts front entry)
    (back : List SourceRecord) :
    (∃ name, entry.identity = some name ∧
      (({} : SourceRegistry).attemptAll (front ++ entry :: back)).1[front.length]? =
        some (.error (.identityConflict name))) ∧
    ({} : SourceRegistry).attemptAll (front ++ back) =
      ((({} : SourceRegistry).attemptAll (front ++ entry :: back)).1.eraseIdx front.length,
        (({} : SourceRegistry).attemptAll (front ++ entry :: back)).2) := by
  have filled : (({} : SourceRegistry).attemptAll front).2.entries.toList = settle [] front :=
    attemptAll_entries {} front
  cases outcome : (({} : SourceRegistry).attemptAll front).2.addRecord entry with
  | ok added =>
      have succeeds := failure?_eq_none_iff.mpr ⟨added, outcome⟩
      exact absurd contradicts
        ((failure?_addRecord_eq_none_iff_history filled entry).mp succeeds)
  | error cause =>
      rcases (addRecord_eq_error outcome).2 with ⟨name, isName, isCause⟩
      have refused : (({} : SourceRegistry).attemptAll front).2.attempt entry =
          (.error (.identityConflict name), (({} : SourceRegistry).attemptAll front).2) := by
        rw [attempt, outcome, isCause]
      constructor
      · refine ⟨name, isName, ?_⟩
        rw [getElem?_attemptAll, refused]
      · rw [attemptAll_append, attemptAll_append, attemptAll_cons, refused,
          List.eraseIdx_append_of_length_le (Nat.le_of_eq (length_attemptAll _ _)),
          length_attemptAll, Nat.sub_self, List.eraseIdx_cons_zero]

theorem attemptAll_of_not_contradicts (agrees : ¬ Contradicts front entry)
    (back : List SourceRecord) :
    (({} : SourceRegistry).attemptAll (front ++ entry :: back)).1[front.length]? =
      some (.ok ((identities (front ++ entry :: back)).idxOf entry.identity)) := by
  have filled : (({} : SourceRegistry).attemptAll front).2.entries.toList = settle [] front :=
    attemptAll_entries {} front
  rcases failure?_eq_none_iff.mp
    ((failure?_addRecord_eq_none_iff_history filled entry).mpr agrees) with ⟨added, outcome⟩
  rcases added with ⟨index, grown⟩
  have accepted : (({} : SourceRegistry).attemptAll front).2.attempt entry =
      (.ok index, grown) := by
    rw [attempt, outcome]
  have grownFilled : grown.entries.toList = settle [] (front ++ [entry]) := by
    rw [(addRecord_eq_ok outcome).1, filled, settle_append]
  have position := idxOf_identities grownFilled (addRecord_eq_ok outcome).2 back
  rw [List.append_assoc, List.singleton_append] at position
  rw [getElem?_attemptAll, accepted, position]

theorem exists_ok_attemptAll_iff (back : List SourceRecord) :
    (∃ index, (({} : SourceRegistry).attemptAll (front ++ entry :: back)).1[front.length]? =
      some (.ok index)) ↔ ¬ Contradicts front entry := by
  constructor
  · intro succeeds contradicts
    rcases succeeds with ⟨index, isOk⟩
    rcases (attemptAll_of_contradicts contradicts back).1 with ⟨name, _, isError⟩
    rw [isOk] at isError
    cases isError
  · intro agrees
    exact ⟨_, attemptAll_of_not_contradicts agrees back⟩

end History

end SourceRegistry

theorem NameRegistry.addAll_empty (used : List String) :
    ({} : NameRegistry).addAll used =
      (used.map used.eraseDups.idxOf, ⟨used.eraseDups.toArray⟩) := by
  cases made : ({} : NameRegistry).addAll used with
  | mk indices table =>
      rcases addAll_eq made with ⟨listed, known⟩
      have names : table.names.toList = used.eraseDups :=
        listed.trans (enlist_nil_eq_eraseDups used)
      have distinct : used.eraseDups.Nodup := by
        rw [← enlist_nil_eq_eraseDups, ← List.map_id (enlist id [] used)]
        exact enlist_nodup id (by simp) used
      have positions : List.Forall₂ (fun name index => used.eraseDups.idxOf name = index)
          used indices := by
        refine known.imp ?_
        intro name index found
        rw [← Array.getElem?_toList, names] at found
        rcases List.getElem?_eq_some_iff.mp found with ⟨within, isName⟩
        rw [← isName]
        exact distinct.idxOf_getElem index within
      have sameIndices : used.map used.eraseDups.idxOf = indices := by
        rw [← List.forall₂_eq_eq_eq]
        exact List.forall₂_map_left_iff.mpr positions
      rw [sameIndices, ← names, Array.toArray_toList]

/-! ### Histories -/

open SourceRecord (identities firstContent? Contradicts)

/-- After any calls on new tables the sources are the identities that were given, in the order of
first mention and with what they were given then. A call fails exactly if it contradicts that, and
might then as well not have been made; every other call has told the place of its identity in the
final table, and every call for a name that of its name. -/
theorem tables_of_history (calls : List SourceRecord) (used : List String) :
    let history := ({} : SourceRegistry).attemptAll calls
    history.2.entries.toList =
        ((identities calls).map fun identity => ⟨identity, firstContent? calls identity⟩) ∧
      history.1.length = calls.length ∧
      (∀ front entry back, calls = front ++ entry :: back →
        (Contradicts front entry →
          (∃ name, entry.identity = some name ∧
            history.1[front.length]? = some (.error (.identityConflict name))) ∧
          ({} : SourceRegistry).attemptAll (front ++ back) =
            (history.1.eraseIdx front.length, history.2)) ∧
        (¬ Contradicts front entry →
          history.1[front.length]? = some (.ok ((identities calls).idxOf entry.identity)))) ∧
      ({} : NameRegistry).addAll used =
        (used.map used.eraseDups.idxOf, ⟨used.eraseDups.toArray⟩) := by
  intro history
  refine ⟨?_, SourceRegistry.length_attemptAll _ _, ?_, NameRegistry.addAll_empty used⟩
  · exact (SourceRegistry.attemptAll_entries {} calls).trans (SourceRegistry.settle_nil_eq calls)
  · intro front entry back whole
    subst whole
    constructor
    · intro contradicts
      exact SourceRegistry.attemptAll_of_contradicts contradicts back
    · intro agrees
      exact SourceRegistry.attemptAll_of_not_contradicts agrees back

theorem tables_of_history_stray :
    let front : List SourceRecord :=
      [⟨some "a", some "x"⟩, ⟨none, some "stray"⟩, ⟨some "b", none⟩]
    let refused : SourceRecord := ⟨some "a", some "y"⟩
    let back : List SourceRecord := [⟨some "b", some "z"⟩]
    let history := ({} : SourceRegistry).attemptAll (front ++ refused :: back)
    history.2.entries.toList = [⟨some "a", some "x"⟩, ⟨none, none⟩, ⟨some "b", none⟩] ∧
      history.1[3]? = some (.error (.identityConflict "a")) ∧
      ({} : SourceRegistry).attemptAll (front ++ back) = (history.1.eraseIdx 3, history.2) ∧
      history.1[4]? = some (.ok 2) ∧
      ({} : NameRegistry).addAll ["n", "m", "n"] = ([0, 1, 0], ⟨#["n", "m"]⟩) := by
  intro front refused back history
  rcases tables_of_history (front ++ refused :: back) ["n", "m", "n"] with
    ⟨entries, _, outcomes, names⟩
  rcases (outcomes front refused back rfl).1 (by decide +kernel) with
    ⟨⟨name, isName, isError⟩, unchanged⟩
  have accepted := (outcomes (front ++ [refused]) ⟨some "b", some "z"⟩ [] rfl).2 (by decide +kernel)
  cases isName
  refine ⟨entries.trans ?_, isError, unchanged, accepted.trans ?_, names.trans ?_⟩
  · decide +kernel
  · have stands : (identities (front ++ refused :: back)).idxOf (some "b") = 2 := by
      decide +kernel
    exact congrArg (fun index => some (Except.ok index)) stands
  · decide +kernel

theorem SourceRecord.not_contradicts_both_iff {front middle : List SourceRecord}
    {name left right : String} (different : left ≠ right) :
    ¬ Contradicts front ⟨some name, some left⟩ ∧
        ¬ Contradicts (front ++ ⟨some name, some left⟩ :: middle) ⟨some name, some right⟩ ↔
      front.find? (fun entry => entry.identity = some name) = some ⟨some name, none⟩ := by
  rw [contradicts_known_iff, contradicts_known_iff]
  cases found : front.find? fun entry => entry.identity = some name with
  | none =>
      let leftEntry : SourceRecord := ⟨some name, some left⟩
      have held : firstContent? (front ++ leftEntry :: middle) (some name) = some left :=
        @firstContent?_append_cons front leftEntry found middle
      constructor
      · intro agrees
        exact absurd ⟨left, held, different⟩ agrees.2
      · intro absent
        cases absent
  | some first =>
      rcases first with ⟨identity, content⟩
      have isName : identity = some name := by
        simpa using List.find?_some found
      subst isName
      have held : firstContent? front (some name) = content := by
        have alone := firstContent?_append found []
        rwa [List.append_nil] at alone
      rw [held, firstContent?_append found]
      cases content with
      | none => simp [settled]
      | some text =>
          constructor
          · intro agrees
            by_cases isLeft : text = left
            · exact absurd ⟨text, rfl, isLeft ▸ different⟩ agrees.2
            · exact absurd ⟨text, rfl, isLeft⟩ agrees.1
          · intro unknown
            cases unknown

namespace SourceRegistry

/-- Of two calls that give a name two different known contents one fails, unless the first call for
that name, ahead of both, came without content: what is given later is then compared with
nothing. -/
theorem both_succeed_iff {front middle back : List SourceRecord} {name left right : String}
    (different : left ≠ right) :
    let calls := front ++ ⟨some name, some left⟩ :: (middle ++ ⟨some name, some right⟩ :: back)
    let outcomes := (({} : SourceRegistry).attemptAll calls).1
    ((∃ index, outcomes[front.length]? = some (.ok index)) ∧
        ∃ index, outcomes[front.length + 1 + middle.length]? = some (.ok index)) ↔
      front.find? (fun entry => entry.identity = some name) = some ⟨some name, none⟩ := by
  intro calls outcomes
  let ahead := front ++ ⟨some name, some left⟩ :: middle
  have leftSucceeds : (∃ index, outcomes[front.length]? = some (.ok index)) ↔
      ¬ Contradicts front ⟨some name, some left⟩ :=
    exists_ok_attemptAll_iff _
  have rightSucceeds : (∃ index, outcomes[front.length + 1 + middle.length]? = some (.ok index)) ↔
      ¬ Contradicts ahead ⟨some name, some right⟩ := by
    have whole : calls = ahead ++ ⟨some name, some right⟩ :: back := by
      simp only [calls, ahead, List.append_assoc, List.cons_append]
    have place : front.length + 1 + middle.length = ahead.length := by
      simp only [ahead, List.length_append, List.length_cons]
      omega
    rw [place, ← exists_ok_attemptAll_iff back, ← whole]
  rw [leftSucceeds, rightSucceeds]
  exact SourceRecord.not_contradicts_both_iff different

theorem both_succeed_iff_between :
    ("x" : String) ≠ "y" ∧
      ¬ ((∃ index, (({} : SourceRegistry).attemptAll
            [⟨some "a", some "x"⟩, ⟨some "a", none⟩, ⟨some "a", some "y"⟩]).1[0]? =
              some (.ok index)) ∧
          ∃ index, (({} : SourceRegistry).attemptAll
            [⟨some "a", some "x"⟩, ⟨some "a", none⟩, ⟨some "a", some "y"⟩]).1[2]? =
              some (.ok index)) := by
  have different : ("x" : String) ≠ "y" := by decide
  refine ⟨different, ?_⟩
  intro succeed
  let between : List SourceRecord := [⟨some "a", none⟩]
  have unknown := (@both_succeed_iff [] between [] "a" "x" "y" different).mp succeed
  cases unknown

/-- The first call for the name is without content: two different contents are then taken. -/
theorem both_succeed_unknown :
    (({} : SourceRegistry).attemptAll
        [⟨some "a", none⟩, ⟨some "a", some "x"⟩, ⟨some "a", some "y"⟩]).1.map Except.toOption =
      [some 0, some 0, some 0] := by
  decide +kernel

end SourceRegistry

end SourceWeave
