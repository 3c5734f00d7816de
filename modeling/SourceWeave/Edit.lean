import SourceWeave.TracedText

/-!
Edits of a text: ranges of units and what replaces them. The edits of one node
are kept in the order in which they apply and never overlap, though one may
start where another ends.
-/

set_option autoImplicit false

namespace SourceWeave

structure Edit where
  start : Nat
  stop : Nat
  replacement : String
deriving DecidableEq, Repr

def Edit.insertion (place : Nat) (text : String) : Edit :=
  ⟨place, place, text⟩

inductive EditError
  | backwards (edit : Edit)
  | overlap (earlier later : Edit)
deriving DecidableEq, Repr

def EditError.message : EditError → String
  | .backwards edit => s!"replacement range {edit.start}..{edit.stop} ends before it starts"
  | .overlap earlier later =>
      s!"replacement ({earlier.start}, {earlier.stop}) overlaps " ++
        s!"replacement ({later.start}, {later.stop})"

structure EditList where
  edits : List Edit
  forward : ∀ edit ∈ edits, edit.start ≤ edit.stop
  disjoint : edits.Pairwise fun earlier later => earlier.stop ≤ later.start
deriving DecidableEq, Repr

namespace EditList

def firstOverlap? : List Edit → Option (Edit × Edit)
  | earlier :: later :: rest =>
      if later.start < earlier.stop then some (earlier, later) else firstOverlap? (later :: rest)
  | _ => none

theorem disjoint_of_firstOverlap?_eq_none (edits : List Edit)
    (forward : ∀ edit ∈ edits, edit.start ≤ edit.stop)
    (apart : firstOverlap? edits = none) :
    edits.Pairwise fun earlier later => earlier.stop ≤ later.start := by
  fun_induction firstOverlap? edits with
  | case1 => cases apart
  | case2 earlier later rest inOrder ih =>
      have tail := ih (fun edit member => forward edit (List.mem_cons_of_mem _ member)) apart
      refine List.pairwise_cons.mpr ⟨?_, tail⟩
      intro edit member
      have first : earlier.stop ≤ later.start := Nat.le_of_not_lt inOrder
      rcases List.mem_cons.mp member with same | inRest
      · exact same ▸ first
      · have second := forward later (List.mem_cons_of_mem _ List.mem_cons_self)
        have third := (List.pairwise_cons.mp tail).1 edit inRest
        omega
  | case3 edits short =>
      match edits, short with
      | [], _ => exact List.Pairwise.nil
      | [single], _ => exact List.pairwise_singleton _ single
      | earlier :: later :: rest, short => exact absurd rfl (short earlier later rest)

/-- Edits apply by where they start, and by where they end if they start together;
of equal ones the first given applies first. -/
def applicationOrder (edits : List Edit) : List Edit :=
  stableSort
    (fun left right =>
      decide (left.start < right.start ∨ left.start = right.start ∧ left.stop ≤ right.stop))
    edits

/-- Every edit is checked by itself, in the order given, before any two are compared. -/
def ofList (edits : List Edit) : Except EditError EditList :=
  match allForward : edits.find? (fun edit => decide (edit.stop < edit.start)) with
  | some edit => .error (.backwards edit)
  | none =>
      match apart : firstOverlap? (applicationOrder edits) with
      | some (earlier, later) =>
          .error (.overlap earlier later)
      | none =>
          have forward : ∀ edit ∈ applicationOrder edits, edit.start ≤ edit.stop := by
            intro edit member
            have given := (mem_stableSort _ edit edits).mp member
            simpa using List.find?_eq_none.mp allForward edit given
          .ok
            { edits := applicationOrder edits
              forward
              disjoint := disjoint_of_firstOverlap?_eq_none _ forward apart }

def piecesFrom (start length : Nat) : List Edit → List Piece
  | [] => [.copy 0 start length]
  | edit :: rest =>
      .copy 0 start edit.start :: .insert edit.replacement true :: piecesFrom edit.stop length rest

def pieces (edits : EditList) (length : Nat) : Except MappingError (List Piece) :=
  match edits.edits.find? fun edit => decide (length < edit.stop) with
  | some edit => .error (.outOfRange .replacementEnd edit.stop length)
  | none => .ok (piecesFrom 0 length edits.edits)

end EditList

end SourceWeave
