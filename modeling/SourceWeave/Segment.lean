import SourceWeave.Position

/-!
Segments: a place of the generated text together with what is known of its
origin from there on, up to the next segment of the same line. A segment
without an origin is a marker and ends a traced run.
-/

set_option autoImplicit false

namespace SourceWeave

/-- A place in one of a mapping's sources. Source and name are table indices. -/
structure Location where
  source : Nat
  line : Nat
  column : Nat
  name : Option Nat
deriving DecidableEq, Repr, Inhabited

structure Segment where
  position : Position
  origin : Option Location
deriving DecidableEq, Repr, Inhabited

namespace Segment

def marker (position : Position) : Segment :=
  ⟨position, none⟩

def traced (position : Position) (source line column : Nat) : Segment :=
  ⟨position, some ⟨source, line, column, none⟩⟩

def named (segment : Segment) (name : Nat) : Segment :=
  { segment with origin := segment.origin.map fun location => { location with name := some name } }

def isMarker (segment : Segment) : Bool :=
  segment.origin.isNone

def Ordered (segments : List Segment) : Prop :=
  segments.Pairwise fun earlier later => earlier.position < later.position

def firstDisorder? : List Segment → Option (Segment × Segment)
  | earlier :: later :: rest =>
      if earlier.position < later.position then firstDisorder? (later :: rest)
      else some (earlier, later)
  | _ => none

theorem ordered_of_firstDisorder?_eq_none (segments : List Segment)
    (inOrder : firstDisorder? segments = none) : Ordered segments := by
  fun_induction firstDisorder? segments with
  | case1 earlier later rest increases ih =>
      have tail := ih inOrder
      refine List.pairwise_cons.mpr ⟨?_, tail⟩
      intro segment member
      rcases List.mem_cons.mp member with same | inRest
      · exact same ▸ increases
      · exact Position.lt_trans increases ((List.pairwise_cons.mp tail).1 segment inRest)
  | case2 => cases inOrder
  | case3 segments short =>
      match segments, short with
      | [], _ => exact List.Pairwise.nil
      | [single], _ => exact List.pairwise_singleton _ single
      | earlier :: later :: rest, short => exact absurd rfl (short earlier later rest)

end Segment

end SourceWeave
