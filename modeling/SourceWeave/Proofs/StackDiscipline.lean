import Mathlib.Logic.Relation
import SourceWeave.Proofs.Weaving

/-!
The stack of the machine that weaves a tree. Whatever the machine has come to, it stands at one
node: what is still to be done belongs to the nodes around that one, and what has been made
belongs to the trees in front of it. So a composite always finds the results of its own children
on top, and the machine ends with the one result of the whole tree.
-/

set_option autoImplicit false

namespace SourceWeave.SourceTree

variable {withMap : Bool}

def Steps (withMap : Bool) (before after : Configuration) : Prop :=
  ∃ task rest, before.tasks = task :: rest ∧ perform withMap rest task before.done = .ok after

def Reaches (withMap : Bool) (tree : SourceTree) : Configuration → Prop :=
  Relation.ReflTransGen (Steps withMap) ⟨[.enter tree], []⟩

theorem Steps.run_eq {before after : Configuration} (steps : Steps withMap before after) :
    before.run withMap = after.run withMap := by
  obtain ⟨task, rest, isTask, performed⟩ := steps
  rw [Configuration.run, isTask, run_cons, performed]
  rfl

theorem Reaches.run_eq {tree : SourceTree} {configuration : Configuration}
    (reached : Reaches withMap tree configuration) :
    configuration.run withMap = run withMap [.enter tree] [] := by
  induction reached with
  | refl => rfl
  | tail _ steps ih => rw [← steps.run_eq, ih]

/-! ### Places in a tree -/

/-- A node with one child left out: the children in front of it and behind it, or the edits. -/
inductive Frame
  | joined (before after : List SourceTree)
  | edited (edits : EditList)

namespace Frame

def fill (tree : SourceTree) : Frame → SourceTree
  | .joined before after => .joined (before ++ tree :: after)
  | .edited edits => .edited tree edits

def tasks : Frame → List Task
  | .joined before after => Task.enterAll after [.join (before.length + 1 + after.length)]
  | .edited edits => [.edit edits]

end Frame

/-- The tree around a node, given the frames from the node up to the root. -/
def plug (node : SourceTree) (frames : List Frame) : SourceTree :=
  frames.foldl Frame.fill node

def pending (frames : List Frame) : List Task :=
  frames.flatMap Frame.tasks

/-- Results of the trees in front of a node, the latest in front. -/
inductive Held (withMap : Bool) : List Frame → List TracedText → Prop
  | root : Held withMap [] []
  | joined {before after : List SourceTree} {results held : List TracedText}
      {frames : List Frame} (woven : meanings withMap before = .ok results)
      (above : Held withMap frames held) :
      Held withMap (.joined before after :: frames) (results.reverse ++ held)
  | edited {edits : EditList} {held : List TracedText} {frames : List Frame}
      (above : Held withMap frames held) : Held withMap (.edited edits :: frames) held

/-- Where a machine that weaves the tree `root` can stand. -/
inductive Stands (withMap : Bool) (root : SourceTree) : Configuration → Prop
  | entering {node : SourceTree} {frames : List Frame} {held : List TracedText}
      (place : plug node frames = root) (isHeld : Held withMap frames held) :
      Stands withMap root ⟨.enter node :: pending frames, held⟩
  | joining {children : List SourceTree} {frames : List Frame} {results held : List TracedText}
      (place : plug (.joined children) frames = root) (isHeld : Held withMap frames held)
      (woven : meanings withMap children = .ok results) :
      Stands withMap root ⟨.join children.length :: pending frames, results.reverse ++ held⟩
  | editing {child : SourceTree} {edits : EditList} {frames : List Frame} {result : TracedText}
      {held : List TracedText} (place : plug (.edited child edits) frames = root)
      (isHeld : Held withMap frames held) (woven : meaning withMap child = .ok result) :
      Stands withMap root ⟨.edit edits :: pending frames, result :: held⟩
  | finished {result : TracedText} (woven : meaning withMap root = .ok result) :
      Stands withMap root ⟨[], [result]⟩

theorem stands_initial (root : SourceTree) : Stands withMap root ⟨[.enter root], []⟩ :=
  .entering rfl .root

/-- A woven node is followed by its next sibling or, if there is none, by the node above. -/
theorem stands_of_woven {node root : SourceTree} {frames : List Frame} {held : List TracedText}
    {result : TracedText} (place : plug node frames = root) (isHeld : Held withMap frames held)
    (woven : meaning withMap node = .ok result) :
    Stands withMap root ⟨pending frames, result :: held⟩ := by
  cases isHeld with
  | root =>
      cases place
      exact .finished woven
  | @joined before after results held frames wovenBefore above =>
      have wovenNode : meanings withMap [node] = .ok [result] := by
        rw [meanings, woven, meanings]
        rfl
      have together : meanings withMap (before ++ [node]) = .ok (results ++ [result]) :=
        meanings_append_eq_ok.mpr ⟨_, _, wovenBefore, wovenNode, rfl⟩
      have latest :
          result :: (results.reverse ++ held) = (results ++ [result]).reverse ++ held := by
        rw [List.reverse_append]
        rfl
      rw [latest]
      cases after with
      | nil =>
          have stands := Stands.joining place above together
          rwa [List.length_append] at stands
      | cons next others =>
          have moved : pending (.joined before (next :: others) :: frames) =
              .enter next :: pending (.joined (before ++ [node]) others :: frames) := by
            simp [pending, Frame.tasks, Task.enterAll]
            omega
          rw [moved]
          refine .entering ?_ (.joined together above)
          rw [← place, plug, List.foldl_cons, plug, List.foldl_cons, Frame.fill, Frame.fill,
            List.append_assoc]
          rfl
  | @edited edits held frames above => exact .editing place above woven

theorem exists_result_of_performed {rest : List Task} {done : List TracedText}
    {action : Except MappingError TracedText} {after : Configuration}
    (performed : Configuration.mk rest <$> Halt.push done action = .ok after) :
    ∃ result, action = .ok result ∧ after = ⟨rest, result :: done⟩ := by
  cases action with
  | error cause => cases performed
  | ok result =>
      cases performed
      exact ⟨result, rfl, rfl⟩

theorem Stands.enter {node root : SourceTree} {frames : List Frame} {held : List TracedText}
    {after : Configuration} (place : plug node frames = root) (isHeld : Held withMap frames held)
    (performed : perform withMap (pending frames) (.enter node) held = .ok after) :
    Stands withMap root after := by
  cases node with
  | plain text identity =>
      cases performed
      exact stands_of_woven place isHeld (by rw [meaning])
  | authored text identity =>
      obtain ⟨result, woven, isAfter⟩ := exists_result_of_performed performed
      rw [isAfter]
      exact stands_of_woven place isHeld (by rw [meaning, woven])
  | mapped leaf =>
      obtain ⟨result, woven, isAfter⟩ := exists_result_of_performed performed
      rw [isAfter]
      exact stands_of_woven place isHeld (by rw [meaning, woven])
  | joined children =>
      have noResults : meanings withMap [] = .ok [] := by rw [meanings]
      cases performed
      cases children with
      | nil => exact .joining place isHeld noResults
      | cons first others =>
          have opened : Task.enterAll (first :: others)
              (.join (first :: others).length :: pending frames) =
                .enter first :: pending (.joined [] others :: frames) := by
            simp [pending, Frame.tasks, Task.enterAll]
            omega
          rw [opened]
          exact .entering place (.joined noResults isHeld)
  | edited child edits =>
      cases performed
      refine .entering ?_ (.edited isHeld)
      exact place

theorem Stands.step {root : SourceTree} {before after : Configuration}
    (stands : Stands withMap root before) (steps : Steps withMap before after) :
    Stands withMap root after := by
  obtain ⟨task, rest, isTask, performed⟩ := steps
  cases stands with
  | entering place isHeld =>
      cases isTask
      exact .enter place isHeld performed
  | joining place isHeld woven =>
      cases isTask
      rw [← length_meanings woven, perform_join] at performed
      obtain ⟨result, isResult, isAfter⟩ := exists_result_of_performed performed
      rw [isAfter]
      apply stands_of_woven place isHeld
      rw [meaning, woven, ok_bind, isResult]
  | editing place isHeld woven =>
      cases isTask
      obtain ⟨result, isResult, isAfter⟩ := exists_result_of_performed performed
      rw [isAfter]
      apply stands_of_woven place isHeld
      rw [meaning, woven, ok_bind, isResult]
  | finished woven => cases isTask

theorem Reaches.stands {tree : SourceTree} {configuration : Configuration}
    (reached : Reaches withMap tree configuration) : Stands withMap tree configuration := by
  induction reached with
  | refl => exact stands_initial tree
  | tail _ steps ih => exact ih.step steps

/-! ### What composites find -/

theorem Stands.at_join {root : SourceTree} {configuration : Configuration}
    (stands : Stands withMap root configuration) {count : Nat} {rest : List Task}
    (isTask : configuration.tasks = .join count :: rest) :
    ∃ children frames results held, plug (.joined children) frames = root ∧
      rest = pending frames ∧ Held withMap frames held ∧ count = children.length ∧
        meanings withMap children = .ok results ∧ results.length = count ∧
          configuration.done = results.reverse ++ held := by
  cases stands with
  | entering place isHeld => cases isTask
  | joining place isHeld woven =>
      cases isTask
      exact ⟨_, _, _, _, place, rfl, isHeld, rfl, woven, length_meanings woven, rfl⟩
  | editing place isHeld woven => cases isTask
  | finished woven => cases isTask

theorem Stands.at_edit {root : SourceTree} {configuration : Configuration}
    (stands : Stands withMap root configuration) {edits : EditList} {rest : List Task}
    (isTask : configuration.tasks = .edit edits :: rest) :
    ∃ child frames result held, plug (.edited child edits) frames = root ∧
      rest = pending frames ∧ Held withMap frames held ∧
        meaning withMap child = .ok result ∧ configuration.done = result :: held := by
  cases stands with
  | entering place isHeld => cases isTask
  | joining place isHeld woven => cases isTask
  | editing place isHeld woven =>
      cases isTask
      exact ⟨_, _, _, _, place, rfl, isHeld, woven, rfl⟩
  | finished woven => cases isTask

theorem Stands.at_end {root : SourceTree} {configuration : Configuration}
    (stands : Stands withMap root configuration) (noTasks : configuration.tasks = []) :
    ∃ result, meaning withMap root = .ok result ∧ configuration.done = [result] := by
  cases stands with
  | entering place isHeld => cases noTasks
  | joining place isHeld woven => cases noTasks
  | editing place isHeld woven => cases noTasks
  | finished woven => exact ⟨_, woven, rfl⟩

theorem run_ne_stuck (withMap : Bool) (tree : SourceTree) :
    run withMap [.enter tree] [] ≠ .error .stuck := by
  rw [run_enter]
  cases meaning withMap tree with
  | error cause =>
      intro stuck
      cases stuck
  | ok result =>
      change run withMap [] [result] ≠ _
      rw [run]
      intro stuck
      cases stuck

/-- The machine weaves a tree to what the tree means, or fails as that does. It never misses a
result: at a join the latest results are those of the node's own children, at an edit that of
the edited child, and in the end there is one result, that of the whole tree. -/
theorem weave_stack (withMap : Bool) (tree : SourceTree) :
    tree.weave withMap = meaning withMap tree ∧
      run withMap [.enter tree] [] ≠ .error .stuck ∧
      ∀ configuration, Reaches withMap tree configuration →
        configuration.run withMap = run withMap [.enter tree] [] ∧
        (∀ count rest, configuration.tasks = .join count :: rest →
          ∃ children frames results held, plug (.joined children) frames = tree ∧
            rest = pending frames ∧ Held withMap frames held ∧ count = children.length ∧
              meanings withMap children = .ok results ∧ results.length = count ∧
                configuration.done = results.reverse ++ held) ∧
        (∀ edits rest, configuration.tasks = .edit edits :: rest →
          ∃ child frames result held, plug (.edited child edits) frames = tree ∧
            rest = pending frames ∧ Held withMap frames held ∧
              meaning withMap child = .ok result ∧ configuration.done = result :: held) ∧
        (configuration.tasks = [] →
          ∃ result, meaning withMap tree = .ok result ∧ configuration.done = [result]) := by
  refine ⟨weave_eq_meaning withMap tree, run_ne_stuck withMap tree, ?_⟩
  intro configuration reached
  have stands := reached.stands
  exact ⟨reached.run_eq, fun _ _ isTask => stands.at_join isTask,
    fun _ _ isTask => stands.at_edit isTask, stands.at_end⟩

theorem weave_stack_nested :
    let edits : EditList :=
      { edits := [Edit.insertion 1 "x"]
        forward := by decide
        disjoint := List.pairwise_singleton _ _ }
    let first : SourceTree := .plain "a" none
    let second : SourceTree := .edited (.plain "b" none) edits
    let tree : SourceTree := .joined [first, second]
    let text (text : String) : TracedText := ⟨text, .unknown⟩
    (Reaches false tree ⟨[.edit edits, .join 2], [text "b", text "a"]⟩ ∧
      ∃ child frames result held, plug (.edited child edits) frames = tree ∧
        [Task.join 2] = pending frames ∧ Held false frames held ∧
          meaning false child = .ok result ∧ [text "b", text "a"] = result :: held) ∧
    (Reaches false tree ⟨[.join 2], [text "bx", text "a"]⟩ ∧
      ∃ children frames results held, plug (.joined children) frames = tree ∧
        [] = pending frames ∧ Held false frames held ∧ 2 = children.length ∧
          meanings false children = .ok results ∧ results.length = 2 ∧
            [text "bx", text "a"] = results.reverse ++ held) ∧
    (Reaches false tree ⟨[], [text "abx"]⟩ ∧
      ∃ result, meaning false tree = .ok result ∧ [text "abx"] = [result]) := by
  intro edits first second tree text
  have atEdit : Reaches false tree ⟨[.edit edits, .join 2], [text "b", text "a"]⟩ :=
    (((Relation.ReflTransGen.refl.tail ⟨_, _, rfl, rfl⟩).tail ⟨_, _, rfl, rfl⟩).tail
      ⟨_, _, rfl, rfl⟩).tail ⟨_, _, rfl, rfl⟩
  have edited : weaveEdited false (text "b") edits = .ok (text "bx") := by decide +kernel
  have atJoin : Reaches false tree ⟨[.join 2], [text "bx", text "a"]⟩ :=
    atEdit.tail ⟨_, _, rfl, by rw [perform, edited]; rfl⟩
  have joined : weaveJoined false [text "a", text "bx"] = .ok (text "abx") := by decide +kernel
  have atEnd : Reaches false tree ⟨[], [text "abx"]⟩ :=
    atJoin.tail ⟨_, _, rfl, by
      change Configuration.mk [] <$> Halt.push [] (weaveJoined false [text "a", text "bx"]) = _
      rw [joined]
      rfl⟩
  have told := (weave_stack false tree).2.2
  exact ⟨⟨atEdit, (told _ atEdit).2.2.1 edits _ rfl⟩, ⟨atJoin, (told _ atJoin).2.1 2 _ rfl⟩,
    ⟨atEnd, (told _ atEnd).2.2.2 rfl⟩⟩

end SourceWeave.SourceTree
