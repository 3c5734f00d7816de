import SourceWeave.Assembly
import SourceWeave.Options
import SourceWeave.SourceTree.Leaf

/-!
Weaving a tree into its text and its mapping. What comes of a tree is said by
recursion on it; it is made by a machine that keeps its own stack, so that the
depth of a tree does not matter.
-/

set_option autoImplicit false

namespace SourceWeave.SourceTree

/-- The mapping of a leaf is not looked at when only text is wanted. The file of a
map that came with a leaf does not name what the leaf becomes part of. -/
def weaveMapped (withMap : Bool) (leaf : MappedText) : Except MappingError TracedText :=
  if withMap then do
    return ⟨leaf.text, .mapped { ← leaf.mapping with file := none }⟩
  else
    return ⟨leaf.text, .unknown⟩

def weaveAuthored (withMap : Bool) (text identity : String) : Except MappingError TracedText :=
  if withMap then do
    return ⟨text, .mapped (← authoredMapping text identity)⟩
  else
    return ⟨text, .unknown⟩

def weavePlain (text : String) (identity : Option String) : TracedText :=
  ⟨text, .ofKnown none identity⟩

def joinedPieces (children : List TracedText) : List Piece :=
  children.mapIdx fun index child => .copy index 0 (utf16Length child.text)

def weaveJoined (withMap : Bool) (children : List TracedText) : Except MappingError TracedText :=
  assemble children (joinedPieces children) withMap

def weaveEdited (withMap : Bool) (child : TracedText) (edits : EditList) :
    Except MappingError TracedText := do
  assemble [child] (← edits.pieces (utf16Length child.text)) withMap

mutual

def meaning (withMap : Bool) : SourceTree → Except MappingError TracedText
  | .plain text identity => .ok (weavePlain text identity)
  | .authored text identity => weaveAuthored withMap text identity
  | .mapped leaf => weaveMapped withMap leaf
  | .joined children => do weaveJoined withMap (← meanings withMap children)
  | .edited child edits => do weaveEdited withMap (← meaning withMap child) edits

def meanings (withMap : Bool) : List SourceTree → Except MappingError (List TracedText)
  | [] => .ok []
  | tree :: rest => do
      let first ← meaning withMap tree
      return first :: (← meanings withMap rest)

end

/-! ### With a stack -/

inductive Task
  | enter (tree : SourceTree)
  | join (count : Nat)
  | edit (edits : EditList)

/-- A run ends early if a mapping is at fault, or if results are missing. -/
inductive Halt
  | failed (error : MappingError)
  | stuck
deriving DecidableEq, Repr

/-- What a task costs at most: two steps for every node that is to be entered. -/
def Task.weight : Task → Nat
  | .enter tree => 2 * tree.size
  | _ => 1

def Task.weightAll : List Task → Nat
  | [] => 0
  | task :: rest => task.weight + weightAll rest

def Task.enterAll (trees : List SourceTree) (rest : List Task) : List Task :=
  trees.map .enter ++ rest

private theorem weight_enterAll (trees : List SourceTree) (rest : List Task) :
    Task.weightAll (Task.enterAll trees rest) = 2 * sizeAll trees + Task.weightAll rest := by
  induction trees with
  | nil => simp [Task.enterAll, sizeAll]
  | cons tree trees ih =>
      simp only [Task.enterAll, List.map_cons, List.cons_append, Task.weightAll, Task.weight,
        sizeAll] at ih ⊢
      omega

def Halt.push (done : List TracedText) (result : Except MappingError TracedText) :
    Except Halt (List TracedText) :=
  (result.mapError Halt.failed).map (· :: done)

/-- Runs the tasks from the first to the last. The latest result stands first in `done`. -/
def run (withMap : Bool) : List Task → List TracedText → Except Halt TracedText
  | [], [] => .error .stuck
  | [], result :: _ => .ok result
  | .enter (.plain text identity) :: rest, done =>
      run withMap rest (weavePlain text identity :: done)
  | .enter (.authored text identity) :: rest, done => do
      run withMap rest (← Halt.push done (weaveAuthored withMap text identity))
  | .enter (.mapped leaf) :: rest, done => do
      run withMap rest (← Halt.push done (weaveMapped withMap leaf))
  | .enter (.joined children) :: rest, done =>
      run withMap (Task.enterAll children (.join children.length :: rest)) done
  | .enter (.edited child edits) :: rest, done =>
      run withMap (.enter child :: .edit edits :: rest) done
  | .join count :: rest, done =>
      if done.length < count then .error .stuck
      else do
        let children := (done.take count).reverse
        run withMap rest (← Halt.push (done.drop count) (weaveJoined withMap children))
  | .edit _ :: _, [] => .error .stuck
  | .edit edits :: rest, child :: done => do
      run withMap rest (← Halt.push done (weaveEdited withMap child edits))
termination_by tasks => Task.weightAll tasks
decreasing_by
  all_goals simp only [weight_enterAll, Task.weightAll, Task.weight, size]
  all_goals omega

def weave (withMap : Bool) (tree : SourceTree) : Except MappingError TracedText :=
  match run withMap [.enter tree] [] with
  | .ok woven => .ok woven
  | .error (.failed error) => .error error
  | .error .stuck => .ok ⟨"", .unknown⟩

/-! ### Queries -/

def text (tree : SourceTree) : Except MappingError String := do
  return (← tree.weave false).text

structure Rendering where
  text : String
  mapping : Option Mapping
deriving DecidableEq, Repr

def underOptions (options : MappingOptions) (mapping : Mapping) : Except MappingError Mapping := do
  let mapping ← if options.columns then pure mapping else mapping.byLine
  return { mapping with file := options.file <|> mapping.file }

/-- Text and mapping of one weave. There is no mapping if nothing in the tree says
anything of its origin, and none for a tree that is a single plain text. -/
def rendering (tree : SourceTree) (options : MappingOptions) : Except MappingError Rendering := do
  let woven ← tree.weave true
  return ⟨woven.text, ← woven.provenance.mapping?.mapM (underOptions options)⟩

def mapping (tree : SourceTree) (options : MappingOptions) :
    Except MappingError (Option Mapping) := do
  return (← tree.rendering options).mapping

def mappedOver (text identity : String) (map : WireMap) (inner : SourceTree) (removed : Bool) :
    Except MappingError SourceTree := do
  let woven ← inner.rendering {}
  return .mapped
    { text
      identity
      map
      inner := some
        { text := woven.text, map := woven.mapping.map (·.toWire), removed } }

end SourceWeave.SourceTree
