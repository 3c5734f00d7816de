import SourceWeave.Mapping

/-!
What an assembly starts from: the woven children of a node, and the pieces in
which the node's text is put together from them.
-/

set_option autoImplicit false

namespace SourceWeave

/-- What is known of where a text comes from: nothing, that it is a source of its
own, or what a mapping says. -/
inductive Provenance
  | unknown
  | own (identity : String)
  | mapped (mapping : Mapping)
deriving DecidableEq, Repr

namespace Provenance

/-- A mapping says more than an identity and takes its place. -/
def ofKnown (mapping : Option Mapping) (identity : Option String) : Provenance :=
  match mapping, identity with
  | some mapping, _ => .mapped mapping
  | none, some identity => .own identity
  | none, none => .unknown

def mapping? : Provenance → Option Mapping
  | .mapped mapping => some mapping
  | _ => none

def isTracked : Provenance → Bool
  | .unknown => false
  | _ => true

end Provenance

structure TracedText where
  text : String
  provenance : Provenance
deriving DecidableEq, Repr

inductive Piece
  | copy (child start stop : Nat)
  /-- Text of no origin. Only if it is marked does it end the run before it. -/
  | insert (text : String) (marked : Bool)
deriving DecidableEq, Repr

end SourceWeave
