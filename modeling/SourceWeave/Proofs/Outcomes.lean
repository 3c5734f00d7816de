import SourceWeave.Proofs.Canonical

/-!
How assembling ends. Copies of one child within its text fail exactly as entering the
child's tables fails, and the tables of a text in canonical form can always be entered.
Without a mapping the same comes out as for children of which nothing is known.
-/

set_option autoImplicit false

namespace SourceWeave

def failure? {ε α : Type} : Except ε α → Option ε
  | .error cause => some cause
  | .ok _ => none

section Failure

variable {ε α β : Type} {action : Except ε α}

theorem failure?_eq_none_iff : failure? action = none ↔ ∃ result, action = .ok result := by
  cases action with
  | error cause => simp [failure?]
  | ok result => simp [failure?]

theorem failure?_eq_some_iff {cause : ε} : failure? action = some cause ↔ action = .error cause := by
  cases action with
  | error other => simp [failure?]
  | ok result => simp [failure?]

theorem failure?_bind {next : α → Except ε β}
    (succeeds : ∀ result, action = .ok result → failure? (next result) = none) :
    failure? (action >>= next) = failure? action := by
  cases action with
  | error cause => rfl
  | ok result => exact succeeds result rfl

end Failure

namespace SourceRegistry

theorem failure?_add_of_unknown {table : SourceRegistry} {identity content : Option String}
    (unknown : identity ∉ table.entries.toList.map SourceRecord.identity) :
    failure? (table.add identity content) = none := by
  rw [add, indexOf?_eq_none_iff.mpr unknown]
  rfl

theorem failure?_addAll_of_distinct {table : SourceRegistry} {given : List SourceRecord}
    (distinct : ((table.entries.toList ++ given).map SourceRecord.identity).Nodup) :
    failure? (table.addAll given) = none := by
  induction given generalizing table with
  | nil => rfl
  | cons entry rest ih =>
      rw [List.append_cons, List.map_append, List.map_append, List.map_singleton] at distinct
      have front := (List.nodup_append.mp distinct).1
      have unknown : entry.identity ∉ table.entries.toList.map SourceRecord.identity := by
        intro known
        exact (List.nodup_append.mp front).2.2 _ known _ (List.mem_singleton.mpr rfl) rfl
      have entered : failure? (table.addRecord entry) = none := failure?_add_of_unknown unknown
      rw [addAll, failure?_bind]
      · exact entered
      · intro first added
        have sameKeys : first.2.entries.toList.map SourceRecord.identity =
            table.entries.toList.map SourceRecord.identity ++ [entry.identity] := by
          rw [(addRecord_eq_ok added).1, settle, List.map_singleton, enlist_of_distinct,
            List.map_append]
          · rfl
          · rw [List.map_append]
            exact front
        have entersRest : failure? (first.2.addAll rest) = none := by
          apply ih
          rw [List.map_append, sameKeys]
          exact distinct
        rw [failure?_bind]
        · exact entersRest
        · intro others _
          rfl

end SourceRegistry

theorem TracedText.Canonical.failure?_addAll {woven : TracedText} (canonical : woven.Canonical) :
    failure? (({} : SourceRegistry).addAll woven.entries) = none := by
  unfold TracedText.entries
  cases canonical with
  | unknown isUnknown =>
      rw [isUnknown]
      rfl
  | mapped isMapped canonical =>
      rw [isMapped]
      exact SourceRegistry.failure?_addAll_of_distinct canonical.distinctSources

/-! ### Copies of one child -/

def Piece.Within (children : List TracedText) : Piece → Prop
  | .copy index start stop =>
      ∃ child, children[index]? = some child ∧ start ≤ stop ∧ stop ≤ utf16Length child.text
  | .insert _ _ => True

namespace Assembly

variable {children : List TracedText} {child : TracedText} {before after : Assembly}

theorem failure?_enter (before : Assembly) (child : TracedText) :
    failure? (before.enter (Strand.ofTracedText child)) =
      failure? (before.sources.addAll child.entries) := by
  have sameText : (Strand.ofTracedText child).text.text = child.text :=
    IndexedText.ofString_text child.text
  rw [enter, sameText, TracedText.entries]
  cases child with
  | mk text provenance =>
      dsimp only [Strand.ofTracedText]
      cases provenance with
      | unknown => rfl
      | own identity =>
          dsimp only
          rw [SourceRegistry.addAll, SourceRegistry.addRecord, failure?_bind fun _ _ => rfl,
            failure?_bind fun _ _ => rfl]
      | mapped mapping => exact failure?_bind fun _ _ => rfl

theorem failure?_link (before : Assembly) (index : Nat) (child : TracedText) :
    failure? (before.link index (Strand.ofTracedText child)) =
      if (before.links[index]?.join).isSome then none
      else failure? (before.sources.addAll child.entries) := by
  rw [link]
  cases before.links[index]?.join with
  | some links => rfl
  | none =>
      rw [← failure?_enter]
      exact failure?_bind fun _ _ => rfl

/-- A copy fails where its child cannot be linked, or else where its range is not of the text. -/
theorem failure?_copy_eq {index start stop : Nat} (isChild : children[index]? = some child) :
    failure? (before.copy true (children.map Strand.ofTracedText).toArray index start stop) =
      (failure? (before.link index (Strand.ofTracedText child))).or
        (failure? ((IndexedText.ofString child.text).slice start stop)) := by
  rw [copy_true_eq isChild]
  cases before.link index (Strand.ofTracedText child) with
  | error cause => rfl
  | ok linked =>
      rw [ok_bind, failure?_bind]
      · rfl
      · intro text _
        rfl

theorem failure?_copy {index start stop : Nat} (isChild : children[index]? = some child)
    (inOrder : start ≤ stop) (within : stop ≤ utf16Length child.text) :
    failure? (before.copy true (children.map Strand.ofTracedText).toArray index start stop) =
      failure? (before.link index (Strand.ofTracedText child)) := by
  rw [failure?_copy_eq isChild, IndexedText.slice_eq_ok_iff.mpr ⟨⟨inOrder, within⟩, rfl⟩]
  exact Option.or_none

theorem exists_links_of_step (coherent : Coherent children before) {index start stop : Nat}
    (stepped : before.step true (children.map Strand.ofTracedText).toArray
      (.copy index start stop) = .ok after) :
    ∃ links, after.links[index]?.join = some links := by
  obtain ⟨_, links, _, copied, _⟩ := copy_eq_ok coherent.linked stepped
  refine ⟨links, ?_⟩
  rw [copied.linksAfter, if_pos rfl]

theorem failure?_run_of_linked (coherent : Coherent [child] before) {links : Links}
    (held : before.links[0]?.join = some links) {pieces : List Piece}
    (within : ∀ piece ∈ pieces, piece.Within [child]) :
    failure? (pieces.foldlM
      (Assembly.step true ([child].map Strand.ofTracedText).toArray) before) = none := by
  induction pieces generalizing before links with
  | nil => rfl
  | cons piece rest ih =>
      have restWithin (other : Piece) (member : other ∈ rest) : other.Within [child] :=
        within other (List.mem_cons_of_mem piece member)
      have pieceWithin := within piece List.mem_cons_self
      rw [List.foldlM_cons]
      cases piece with
      | insert text marked => exact ih (coherent.insert text marked) held restWithin
      | copy index start stop =>
          obtain ⟨other, isChild, inOrder, inText⟩ := pieceWithin
          have isFirst : index = 0 := by
            have inList := (List.getElem?_eq_some_iff.mp isChild).1
            rw [List.length_singleton] at inList
            omega
          cases isFirst
          rw [failure?_bind]
          · rw [step, failure?_copy isChild inOrder inText, failure?_link, held]
            rfl
          · intro after stepped
            obtain ⟨afterLinks, heldAfter⟩ := exists_links_of_step coherent stepped
            exact ih (coherent.step stepped) heldAfter restWithin

/-- The first copy links the child, so that a run fails where entering its tables fails. -/
theorem failure?_run {pieces : List Piece} {start stop : Nat}
    (within : ∀ piece ∈ Piece.copy 0 start stop :: pieces, piece.Within [child]) :
    failure? ((Piece.copy 0 start stop :: pieces).foldlM
        (Assembly.step true ([child].map Strand.ofTracedText).toArray)
        { links := Array.replicate 1 none }) =
      failure? (({} : SourceRegistry).addAll child.entries) := by
  have coherent := coherent_initial [child]
  obtain ⟨other, isChild, inOrder, inText⟩ := within _ List.mem_cons_self
  cases isChild
  rw [List.foldlM_cons, failure?_bind]
  · rw [step, failure?_copy rfl inOrder inText, failure?_link]
    rfl
  · intro after stepped
    obtain ⟨links, held⟩ := exists_links_of_step coherent stepped
    apply failure?_run_of_linked (coherent.step stepped) held
    exact fun piece member => within piece (List.mem_cons_of_mem _ member)

end Assembly

theorem failure?_assemble (children : List TracedText) (pieces : List Piece) :
    failure? (assemble children pieces true) =
      failure? (pieces.foldlM (Assembly.step true (children.map Strand.ofTracedText).toArray)
        { links := Array.replicate children.length none }) := by
  rw [assemble, List.size_toArray, List.length_map]
  apply failure?_bind
  intro assembly ran
  have coherent := (Assembly.coherent_initial children).run ran
  split
  · obtain ⟨mapping, made⟩ := coherent.exists_mapping
    rw [made]
    rfl
  · rfl

/-! ### Without a mapping -/

/-- What weaving looks at: without a mapping the text alone. -/
def TracedText.seen (withMap : Bool) (traced : TracedText) : TracedText where
  text := traced.text
  provenance := bif withMap then traced.provenance else .unknown

theorem TracedText.map_seen_true (texts : List TracedText) :
    texts.map (TracedText.seen true) = texts :=
  List.map_id texts

theorem TracedText.any_isTracked_unseen (texts : List TracedText) :
    ((texts.map (TracedText.seen false)).any fun traced => traced.provenance.isTracked) =
      false := by
  rw [List.any_map]
  exact List.any_eq_false.mpr fun _ _ => Bool.false_ne_true

namespace Assembly

def textOnly (count : Nat) (assembly : Assembly) : Assembly where
  output := assembly.output
  links := Array.replicate count none

theorem textOnly_initial (count : Nat) :
    textOnly count { links := Array.replicate count none } =
      { links := Array.replicate count none } :=
  rfl

variable (children : List TracedText)

private theorem exists_link_unseen (before : Assembly) (index : Nat) (child : TracedText) :
    ∃ links after, before.link index (Strand.ofTracedText (child.seen false)) = .ok (links, after) ∧
      after.output = before.output := by
  unfold link
  cases before.links[index]?.join with
  | some held => exact ⟨held, before, rfl, rfl⟩
  | none => exact ⟨_, _, rfl, rfl⟩

theorem map_textOnly_step (before : Assembly) (piece : Piece) :
    (before.step true ((children.map (TracedText.seen false)).map Strand.ofTracedText).toArray piece).map
        (textOnly children.length) =
      (before.textOnly children.length).step false
        (children.map Strand.ofTracedText).toArray piece := by
  cases piece with
  | insert text marked => simp [step, Except.map, insert, append, textOnly]
  | copy index start stop =>
      rw [step, step]
      cases isChild : children[index]? with
      | none =>
          have unseen : (children.map (TracedText.seen false))[index]? = none := by
            rw [List.getElem?_map, isChild]
            rfl
          rw [copy_of_missing isChild, copy_of_missing unseen, List.length_map]
          rfl
      | some child =>
          have unseen : (children.map (TracedText.seen false))[index]? =
              some (child.seen false) := by
            rw [List.getElem?_map, isChild]
            rfl
          obtain ⟨links, linked, isLinked, sameOutput⟩ := exists_link_unseen before index child
          rw [copy_false_eq isChild, copy_true_eq unseen, isLinked, ok_bind]
          change Except.map _ ((IndexedText.ofString child.text).slice start stop >>= _) = _
          cases (IndexedText.ofString child.text).slice start stop with
          | error cause => rfl
          | ok text =>
              rw [ok_bind, ok_bind, Except.map, textOnly, paste_output, sameOutput]
              simp [append, textOnly]

theorem map_textOnly_run (before : Assembly) (pieces : List Piece) :
    (pieces.foldlM (Assembly.step true
        ((children.map (TracedText.seen false)).map Strand.ofTracedText).toArray) before).map
        (textOnly children.length) =
      pieces.foldlM (Assembly.step false (children.map Strand.ofTracedText).toArray)
        (before.textOnly children.length) := by
  induction pieces generalizing before with
  | nil => rfl
  | cons piece rest ih =>
      have stepped := map_textOnly_step children before piece
      rw [List.foldlM_cons, List.foldlM_cons, ← stepped]
      cases before.step true ((children.map (TracedText.seen false)).map Strand.ofTracedText).toArray
          piece with
      | error cause => rfl
      | ok after => exact ih after

end Assembly

theorem exists_assemble_of_run {children : List TracedText} {pieces : List Piece} {withMap : Bool}
    {assembly : Assembly}
    (ran : pieces.foldlM (Assembly.step withMap (children.map Strand.ofTracedText).toArray)
      { links := Array.replicate children.length none } = .ok assembly) :
    ∃ woven, assemble children pieces withMap = .ok woven ∧ woven.text = assembly.output.text := by
  rw [assemble, List.size_toArray, List.length_map, ran, ok_bind]
  cases withMap with
  | true =>
      obtain ⟨mapping, made⟩ := ((Assembly.coherent_initial children).run ran).exists_mapping
      rw [made]
      split
      · exact ⟨_, rfl, rfl⟩
      · exact ⟨_, rfl, rfl⟩
  | false =>
      have sameRun := Assembly.map_textOnly_run children
        { links := Array.replicate children.length none } pieces
      rw [Assembly.textOnly_initial, ran] at sameRun
      have unlinked : assembly.links = Array.replicate children.length none := by
        generalize pieces.foldlM (Assembly.step true _) _ = unseen at sameRun
        cases unseen with
        | error cause => cases sameRun
        | ok full =>
            cases sameRun
            rfl
      rw [Assembly.isTracked_of_unlinked unlinked]
      exact ⟨_, rfl, rfl⟩

theorem Piece.any_isTracked_unseen (children : List TracedText) (pieces : List Piece) :
    pieces.any (Piece.isTracked (children.map (TracedText.seen false))) = false := by
  apply List.any_eq_false.mpr
  intro piece _
  cases piece with
  | insert text marked => exact Bool.false_ne_true
  | copy index start stop =>
      rw [isTracked, child?, List.getElem?_map]
      cases children[index]? <;> exact Bool.false_ne_true

/-- Without a mapping the texts are put together as if nothing were known of them. -/
private theorem assemble_false_eq (children : List TracedText) (pieces : List Piece) :
    assemble children pieces false = assemble (children.map (TracedText.seen false)) pieces true := by
  have sameRun := Assembly.map_textOnly_run children
    { links := Array.replicate children.length none } pieces
  rw [assemble, assemble, List.size_toArray, List.size_toArray, List.length_map, List.length_map,
    List.length_map]
  rw [Assembly.textOnly_initial] at sameRun
  rw [← sameRun]
  cases ran : pieces.foldlM (Assembly.step true
      ((children.map (TracedText.seen false)).map Strand.ofTracedText).toArray)
      { links := Array.replicate children.length none } with
  | error cause => rfl
  | ok after =>
      have coherent := Assembly.coherent_initial (children.map (TracedText.seen false))
      rw [List.length_map] at coherent
      have notTracked : after.isTracked = false := by
        rw [(coherent.extended_run ran).tracked, Assembly.isTracked_of_unlinked rfl,
          Piece.any_isTracked_unseen]
        rfl
      have textNotTracked : (after.textOnly children.length).isTracked = false :=
        Assembly.isTracked_of_unlinked rfl
      rw [ok_bind, notTracked]
      rw [Except.map, ok_bind, textNotTracked]
      rfl

theorem assemble_eq_seen (withMap : Bool) (children : List TracedText) (pieces : List Piece) :
    assemble children pieces withMap =
      assemble (children.map (TracedText.seen withMap)) pieces true := by
  cases withMap with
  | true => rw [TracedText.map_seen_true]
  | false => exact assemble_false_eq children pieces

theorem Composed.seen_eq {entries : List SourceRecord} {names : List String} {woven : TracedText}
    (composed : Composed false entries names woven) : woven.seen false = woven := by
  have notTracked := composed.isTracked
  cases woven with
  | mk text provenance =>
      cases provenance with
      | unknown => rfl
      | own identity => cases notTracked
      | mapped mapping => cases notTracked

theorem canonical_of_assemble {withMap : Bool} {children : List TracedText} {pieces : List Piece}
    {woven : TracedText} (assembled : assemble children pieces withMap = .ok woven) :
    woven.Canonical ∧ woven.seen withMap = woven := by
  rw [assemble_eq_seen] at assembled
  have composed := (assembled_of_assemble assembled).composed
  refine ⟨composed.canonical, ?_⟩
  cases withMap with
  | true => rfl
  | false =>
      rw [Piece.any_isTracked_unseen] at composed
      exact composed.seen_eq

end SourceWeave
