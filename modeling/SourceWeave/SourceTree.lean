import SourceWeave.Edit
import SourceWeave.WireMap

/-!
Source trees: texts with what is known of their origin, joined and edited. A
tree never changes once it is built.
-/

set_option autoImplicit false

namespace SourceWeave

structure InnerText where
  text : String
  map : Option WireMap
  removed : Bool := false
deriving DecidableEq, Repr

/-- A text that was made elsewhere, with the map that came with it. The identity is
that of the inner text among the sources of the map. -/
structure MappedText where
  text : String
  identity : String
  map : WireMap
  inner : Option InnerText := none
deriving DecidableEq, Repr

inductive SourceTree
  /-- Text of which nothing is known. With an identity it is a source to its parents. -/
  | plain (text : String) (identity : Option String)
  /-- A file as it was written, traced to itself. -/
  | authored (text identity : String)
  | mapped (leaf : MappedText)
  | joined (children : List SourceTree)
  | edited (child : SourceTree) (edits : EditList)
deriving BEq, Repr

namespace SourceTree

def kind : SourceTree → String
  | .plain .. => "raw"
  | .authored .. => "original"
  | .mapped .. => "mapped"
  | .joined .. => "concat"
  | .edited .. => "replace"

mutual

def size : SourceTree → Nat
  | .joined children => 1 + sizeAll children
  | .edited child _ => 1 + size child
  | _ => 1

def sizeAll : List SourceTree → Nat
  | [] => 0
  | tree :: rest => size tree + sizeAll rest

end

/-- Adds a child behind the others. Plain texts without identity that come together
become one. -/
def addChild (children : List SourceTree) (child : SourceTree) : List SourceTree :=
  match children.getLast?, child with
  | some (.plain held none), .plain given none =>
      children.dropLast ++ [.plain (held ++ given) none]
  | _, _ => children ++ [child]

def mergeChildren (children : List SourceTree) : List SourceTree :=
  children.foldl addChild []

def join (children : List SourceTree) : SourceTree :=
  .joined (mergeChildren children)

def edit (child : SourceTree) (edits : List Edit) : Except EditError SourceTree := do
  return .edited child (← EditList.ofList edits)

end SourceTree

end SourceWeave
