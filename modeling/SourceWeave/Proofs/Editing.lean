import SourceWeave.Proofs.Splicing
import SourceWeave.Proofs.Weaving

/-!
What comes of editing a woven text: the cells of the text with the edits applied, in
canonical form, over the tables of the text. It fails exactly if the tables of the text
do not go together.
-/

set_option autoImplicit false

namespace SourceWeave

namespace EditList

variable {child : TracedText} {edits : List Edit} {start : Nat}

theorem piecesFrom_aligned (startAligned : Utf16.Aligned child.text.toList start)
    (aligned : ∀ edit ∈ edits, edit.Aligned child.text.toList) :
    ∀ piece ∈ piecesFrom start (utf16Length child.text) edits, piece.Aligned [child] := by
  have copyAligned {first last : Nat} (firstAligned : Utf16.Aligned child.text.toList first)
      (lastAligned : Utf16.Aligned child.text.toList last) :
      (Piece.copy 0 first last).Aligned [child] := by
    intro other isOther
    cases isOther
    exact ⟨firstAligned, lastAligned⟩
  induction edits generalizing start with
  | nil =>
      intro piece member
      rw [List.mem_singleton.mp member]
      exact copyAligned startAligned (Utf16.aligned_length _)
  | cons edit rest ih =>
      obtain ⟨editStart, editStop⟩ := aligned edit List.mem_cons_self
      intro piece member
      rcases List.mem_cons.mp member with isCopy | member
      · rw [isCopy]
        exact copyAligned startAligned editStart
      · rcases List.mem_cons.mp member with isInsert | member
        · rw [isInsert]
          trivial
        · exact ih editStop (fun other inRest => aligned other (List.mem_cons_of_mem edit inRest))
            piece member

theorem piecesFrom_within (startWithin : start ≤ utf16Length child.text)
    (fromStart : ∀ edit ∈ edits, start ≤ edit.start)
    (forward : ∀ edit ∈ edits, edit.start ≤ edit.stop)
    (disjoint : edits.Pairwise fun earlier later => earlier.stop ≤ later.start)
    (within : ∀ edit ∈ edits, edit.stop ≤ utf16Length child.text) :
    ∀ piece ∈ piecesFrom start (utf16Length child.text) edits, piece.Within [child] := by
  induction edits generalizing start with
  | nil =>
      intro piece member
      rw [List.mem_singleton.mp member]
      exact ⟨child, rfl, startWithin, Nat.le_refl _⟩
  | cons edit rest ih =>
      obtain ⟨apart, restDisjoint⟩ := List.pairwise_cons.mp disjoint
      have editForward := forward edit List.mem_cons_self
      have editWithin := within edit List.mem_cons_self
      intro piece member
      rcases List.mem_cons.mp member with isCopy | member
      · rw [isCopy]
        exact ⟨child, rfl, fromStart edit List.mem_cons_self,
          Nat.le_trans editForward editWithin⟩
      · rcases List.mem_cons.mp member with isInsert | member
        · rw [isInsert]
          trivial
        · exact ih editWithin apart
            (fun other inRest => forward other (List.mem_cons_of_mem edit inRest)) restDisjoint
            (fun other inRest => within other (List.mem_cons_of_mem edit inRest)) piece member

theorem exists_piecesFrom_eq_cons (start length : Nat) (edits : List Edit) :
    ∃ stop rest, piecesFrom start length edits = .copy 0 start stop :: rest := by
  cases edits with
  | nil => exact ⟨length, [], rfl⟩
  | cons edit rest => exact ⟨edit.start, _, rfl⟩

theorem flatMap_cells_piecesFrom (child : TracedText) (start : Nat) (edits : List Edit) :
    (piecesFrom start (utf16Length child.text) edits).flatMap (Piece.cells [child]) =
      Cell.spliced child.cells start edits := by
  induction edits generalizing start with
  | nil =>
      rw [Cell.spliced_none, child.extent_cells]
      exact List.append_nil _
  | cons edit rest ih =>
      rw [piecesFrom, List.flatMap_cons, List.flatMap_cons, ih, Cell.spliced_cons]
      rfl

theorem any_isTracked_piecesFrom (child : TracedText) (start length : Nat) (edits : List Edit) :
    (piecesFrom start length edits).any (Piece.isTracked [child]) =
      child.provenance.isTracked := by
  have copyTracked (first last : Nat) :
      (Piece.copy 0 first last).isTracked [child] = child.provenance.isTracked := rfl
  induction edits generalizing start with
  | nil => rw [piecesFrom, List.any_cons, List.any_nil, Bool.or_false, copyTracked]
  | cons edit rest ih =>
      have insertTracked :
          (Piece.insert edit.replacement true).isTracked [child] = false := rfl
      rw [piecesFrom, List.any_cons, List.any_cons, ih, copyTracked, insertTracked,
        Bool.false_or, Bool.or_self]

/-- However often a child is copied, its tables are entered once. -/
theorem settle_piecesFrom (child : TracedText) (held : List SourceRecord) (start length : Nat)
    (edits : List Edit) :
    SourceRegistry.settle held
        ((piecesFrom start length edits).flatMap (Piece.entries [child])) =
      SourceRegistry.settle held child.entries := by
  induction edits generalizing start held with
  | nil =>
      rw [piecesFrom, List.flatMap_singleton]
      rfl
  | cons edit rest ih =>
      rw [piecesFrom, List.flatMap_cons, List.flatMap_cons, SourceRegistry.settle_append,
        SourceRegistry.settle_append, ih]
      exact SourceRegistry.settle_again held child.entries

theorem enlist_piecesFrom (child : TracedText) (held : List String) (start length : Nat)
    (edits : List Edit) :
    enlist id held ((piecesFrom start length edits).flatMap (Piece.nameEntries [child])) =
      enlist id held child.nameEntries := by
  induction edits generalizing start held with
  | nil =>
      rw [piecesFrom, List.flatMap_singleton]
      rfl
  | cons edit rest ih =>
      rw [piecesFrom, List.flatMap_cons, List.flatMap_cons, enlist_append, enlist_append, ih]
      exact enlist_again id held child.nameEntries

end EditList

/-! ### Editing -/

structure EditOf (child : TracedText) (edits : List Edit) (woven : TracedText) : Prop where
  composed : Composed child.provenance.isTracked child.entries child.nameEntries woven
  cells : (∀ edit ∈ edits, edit.Aligned child.text.toList) →
    woven.cells = Cell.spliced child.cells 0 edits

namespace SourceTree

variable {child woven : TracedText} {edits : EditList}

/-- Edits are accepted exactly if they make a list once they are in order. -/
theorem edit_eq_ok_iff {tree edited : SourceTree} {given : List Edit} :
    tree.edit given = .ok edited ↔
      ∃ list : EditList, list.edits = EditList.applicationOrder given ∧
        edited = .edited tree list := by
  constructor
  · intro accepted
    obtain ⟨list, isList, isEdited⟩ := exists_of_bind_eq_ok accepted
    cases isEdited
    exact ⟨list, EditList.ofList_eq_ok_iff.mp isList, rfl⟩
  · intro inOrder
    obtain ⟨list, isOrder, isEdited⟩ := inOrder
    rw [SourceTree.edit, EditList.ofList_eq_ok_iff.mpr isOrder, isEdited]
    rfl

theorem weaveEdited_eq (withMap : Bool)
    (within : ∀ edit ∈ edits.edits, edit.stop ≤ utf16Length child.text) :
    weaveEdited withMap child edits =
      assemble [child] (EditList.piecesFrom 0 (utf16Length child.text) edits.edits) withMap := by
  rw [weaveEdited, EditList.pieces_eq_ok within, ok_bind]

theorem editOf_of_weaveEdited (edited : weaveEdited true child edits = .ok woven) :
    EditOf child edits.edits woven := by
  obtain ⟨pieces, isPieces, assembled⟩ := exists_of_bind_eq_ok edited
  unfold EditList.pieces at isPieces
  split at isPieces
  · cases isPieces
  · cases isPieces
    have result := assembled_of_assemble assembled
    exact
      { composed := result.composed.congr (EditList.any_isTracked_piecesFrom child _ _ _)
          (EditList.settle_piecesFrom child _ _ _ _) (EditList.enlist_piecesFrom child _ _ _ _)
        cells := by
          intro aligned
          rw [result.cells (EditList.piecesFrom_aligned (Utf16.aligned_zero _) aligned),
            EditList.flatMap_cells_piecesFrom] }

theorem failure?_weaveEdited
    (within : ∀ edit ∈ edits.edits, edit.stop ≤ utf16Length child.text) :
    failure? (weaveEdited true child edits) =
      failure? (({} : SourceRegistry).addAll child.entries) := by
  have piecesWithin := EditList.piecesFrom_within (Nat.zero_le _) (fun _ _ => Nat.zero_le _)
    edits.forward edits.disjoint within
  obtain ⟨stop, rest, isPieces⟩ :=
    EditList.exists_piecesFrom_eq_cons 0 (utf16Length child.text) edits.edits
  rw [isPieces] at piecesWithin
  rw [weaveEdited_eq true within, isPieces, failure?_assemble]
  exact Assembly.failure?_run piecesWithin

theorem canonical_of_weaveEdited {withMap : Bool}
    (edited : weaveEdited withMap child edits = .ok woven) :
    woven.Canonical ∧ woven.seen withMap = woven := by
  obtain ⟨pieces, _, assembled⟩ := exists_of_bind_eq_ok edited
  exact canonical_of_assemble assembled

theorem weaveEdited_eq_seen (withMap : Bool) (child : TracedText) (edits : EditList) :
    weaveEdited withMap child edits = weaveEdited true (child.seen withMap) edits := by
  rw [weaveEdited, weaveEdited]
  congr 1
  funext pieces
  exact assemble_eq_seen withMap [child] pieces

end SourceTree

end SourceWeave
