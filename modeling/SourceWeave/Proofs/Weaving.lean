import SourceWeave.Proofs.Tables
import SourceWeave.SourceTree.Weave

/-!
The machine that weaves a tree with its own stack makes what the tree means.
-/

set_option autoImplicit false

namespace SourceWeave.SourceTree

def Halt.pushAll (done : List TracedText) (results : Except MappingError (List TracedText)) :
    Except Halt (List TracedText) :=
  (results.mapError Halt.failed).map fun results => results.reverse ++ done

variable {withMap : Bool}

theorem exists_mapping_of_authored {text identity : String} {woven : TracedText}
    (isWoven : meaning true (.authored text identity) = .ok woven) :
    ∃ mapping, authoredMapping text identity = .ok mapping ∧ woven = ⟨text, .mapped mapping⟩ := by
  rw [meaning] at isWoven
  obtain ⟨mapping, made, isWoven⟩ := exists_of_bind_eq_ok isWoven
  cases isWoven
  exact ⟨mapping, made, rfl⟩

theorem exists_mapping_of_mapped {leaf : MappedText} {woven : TracedText}
    (isWoven : meaning true (.mapped leaf) = .ok woven) :
    ∃ mapping, leaf.mapping = .ok mapping ∧
      woven = ⟨leaf.text, .mapped { mapping with file := none }⟩ := by
  rw [meaning] at isWoven
  obtain ⟨mapping, made, isWoven⟩ := exists_of_bind_eq_ok isWoven
  cases isWoven
  exact ⟨mapping, made, rfl⟩

theorem length_meanings {trees : List SourceTree} {results : List TracedText}
    (woven : meanings withMap trees = .ok results) : results.length = trees.length := by
  induction trees generalizing results with
  | nil =>
      unfold meanings at woven
      cases woven
      rfl
  | cons tree rest ih =>
      unfold meanings at woven
      obtain ⟨result, _, woven⟩ := exists_of_bind_eq_ok woven
      obtain ⟨others, areOthers, woven⟩ := exists_of_bind_eq_ok woven
      cases woven
      rw [List.length_cons, List.length_cons, ih areOthers]

theorem meanings_append (front back : List SourceTree) :
    meanings withMap (front ++ back) =
      meanings withMap front >>= fun first => (first ++ ·) <$> meanings withMap back := by
  induction front with
  | nil =>
      rw [List.nil_append, meanings]
      exact (id_map (meanings withMap back)).symm
  | cons tree rest ih =>
      rw [List.cons_append, meanings, meanings, ih]
      cases meaning withMap tree with
      | error cause => rfl
      | ok result => cases meanings withMap rest <;> cases meanings withMap back <;> rfl

theorem meanings_append_eq_ok {front back : List SourceTree} {results : List TracedText} :
    meanings withMap (front ++ back) = .ok results ↔
      ∃ first second, meanings withMap front = .ok first ∧ meanings withMap back = .ok second ∧
        results = first ++ second := by
  rw [meanings_append]
  constructor
  · intro woven
    obtain ⟨first, isFirst, woven⟩ := exists_of_bind_eq_ok woven
    rw [map_eq_pure_bind] at woven
    obtain ⟨second, isSecond, whole⟩ := exists_of_bind_eq_ok woven
    cases whole
    exact ⟨first, second, isFirst, isSecond, rfl⟩
  · rintro ⟨first, second, isFirst, isSecond, rfl⟩
    rw [isFirst, isSecond]
    rfl

structure Configuration where
  tasks : List Task
  done : List TracedText

def perform (withMap : Bool) (rest : List Task) :
    Task → List TracedText → Except Halt Configuration
  | .enter (.plain text identity), done => .ok ⟨rest, weavePlain text identity :: done⟩
  | .enter (.authored text identity), done =>
      Configuration.mk rest <$> Halt.push done (weaveAuthored withMap text identity)
  | .enter (.mapped leaf), done =>
      Configuration.mk rest <$> Halt.push done (weaveMapped withMap leaf)
  | .enter (.joined children), done =>
      .ok ⟨Task.enterAll children (.join children.length :: rest), done⟩
  | .enter (.edited child edits), done => .ok ⟨.enter child :: .edit edits :: rest, done⟩
  | .join count, done =>
      if done.length < count then .error .stuck
      else
        Configuration.mk rest <$>
          Halt.push (done.drop count) (weaveJoined withMap (done.take count).reverse)
  | .edit _, [] => .error .stuck
  | .edit edits, child :: done =>
      Configuration.mk rest <$> Halt.push done (weaveEdited withMap child edits)

def Configuration.run (withMap : Bool) (configuration : Configuration) : Except Halt TracedText :=
  SourceTree.run withMap configuration.tasks configuration.done

theorem run_cons (task : Task) (rest : List Task) (done : List TracedText) :
    run withMap (task :: rest) done =
      perform withMap rest task done >>= Configuration.run withMap := by
  cases task with
  | enter tree =>
      cases tree with
      | plain text identity => rw [run]; rfl
      | authored text identity => rw [run, perform, bind_map_left]; rfl
      | mapped leaf => rw [run, perform, bind_map_left]; rfl
      | joined children => rw [run]; rfl
      | edited child edits => rw [run]; rfl
  | join count =>
      rw [run, perform]
      split
      · rfl
      · rw [bind_map_left]; rfl
  | edit edits =>
      cases done with
      | nil => rw [run]; rfl
      | cons child done => rw [run, perform, bind_map_left]; rfl

theorem perform_join (results done : List TracedText) (rest : List Task) :
    perform withMap rest (.join results.length) (results.reverse ++ done) =
      Configuration.mk rest <$> Halt.push done (weaveJoined withMap results) := by
  have enough : ¬ (results.reverse ++ done).length < results.length := by
    rw [List.length_append, List.length_reverse]
    omega
  have children : (results.reverse ++ done).take results.length = results.reverse := by
    rw [← List.length_reverse, List.take_left]
  have others : (results.reverse ++ done).drop results.length = done := by
    rw [← List.length_reverse, List.drop_left]
  rw [perform, if_neg enough, children, others, List.reverse_reverse]

theorem run_join (results done : List TracedText) (rest : List Task) :
    run withMap (.join results.length :: rest) (results.reverse ++ done) =
      Halt.push done (weaveJoined withMap results) >>= run withMap rest := by
  rw [run_cons, perform_join, bind_map_left]
  rfl

/-! ### Whole trees -/

mutual

/-- To enter a tree is to add what it means. -/
theorem run_enter (tree : SourceTree) (rest : List Task) (done : List TracedText) :
    run withMap (.enter tree :: rest) done =
      Halt.push done (meaning withMap tree) >>= run withMap rest := by
  cases tree with
  | plain text identity => rw [run, meaning]; rfl
  | authored text identity => rw [run, meaning]
  | mapped leaf => rw [run, meaning]
  | joined children =>
      rw [run, run_enterAll children, meaning]
      cases woven : meanings withMap children with
      | error cause => rfl
      | ok results =>
          change run withMap (.join children.length :: rest) (results.reverse ++ done) = _
          rw [← length_meanings woven, run_join]
          rfl
  | edited child edits =>
      rw [run, run_enter child, meaning]
      cases meaning withMap child with
      | error cause => rfl
      | ok result =>
          change run withMap (.edit edits :: rest) (result :: done) = _
          unfold run
          rfl

theorem run_enterAll (trees : List SourceTree) (rest : List Task) (done : List TracedText) :
    run withMap (Task.enterAll trees rest) done =
      Halt.pushAll done (meanings withMap trees) >>= run withMap rest := by
  cases trees with
  | nil => rw [meanings]; rfl
  | cons tree others =>
      change run withMap (.enter tree :: Task.enterAll others rest) done = _
      rw [run_enter tree, meanings]
      cases meaning withMap tree with
      | error cause => rfl
      | ok result =>
          change run withMap (Task.enterAll others rest) (result :: done) = _
          rw [run_enterAll others]
          cases meanings withMap others with
          | error cause => rfl
          | ok results =>
              change run withMap rest (results.reverse ++ result :: done) =
                run withMap rest ((result :: results).reverse ++ done)
              rw [List.reverse_cons, List.append_assoc]
              rfl

end

theorem weave_eq_meaning (withMap : Bool) (tree : SourceTree) :
    tree.weave withMap = meaning withMap tree := by
  rw [weave, run_enter]
  cases meaning withMap tree with
  | error cause => rfl
  | ok result =>
      have ran : Halt.push [] (.ok result) >>= run withMap [] = .ok result := by
        change run withMap [] [result] = _
        rw [run]
      rw [ran]

theorem mapM_weave (trees : List SourceTree) :
    trees.mapM (weave withMap) = meanings withMap trees := by
  induction trees with
  | nil => rfl
  | cons tree rest ih => rw [List.mapM_cons, meanings, weave_eq_meaning, ih]

/-- With columns the mapping is shown as it was woven, under the file that was asked for. -/
theorem rendering_eq_ok {tree : SourceTree} {options : MappingOptions} {rendered : Rendering}
    (columns : options.columns = true) (shown : tree.rendering options = .ok rendered) :
    ∃ woven, tree.weave true = .ok woven ∧ rendered.text = woven.text ∧
      rendered.mapping = woven.provenance.mapping?.map fun mapping =>
        { mapping with file := options.file <|> mapping.file } := by
  obtain ⟨woven, isWoven, shown⟩ := exists_of_bind_eq_ok shown
  obtain ⟨mapping, isMapping, shown⟩ := exists_of_bind_eq_ok shown
  cases shown
  refine ⟨woven, isWoven, rfl, ?_⟩
  cases found : woven.provenance.mapping? with
  | none =>
      rw [found] at isMapping
      cases isMapping
      rfl
  | some held =>
      rw [found] at isMapping
      simp only [Option.mapM_some, underOptions, columns, if_true] at isMapping
      cases isMapping
      rfl

theorem exists_mapping_of_rendering {tree : SourceTree} {options : MappingOptions}
    (succeeds : (tree.rendering options).toOption.any (fun rendered => rendered.mapping.isSome) =
      true) : ∃ text mapping, tree.rendering options = .ok ⟨text, some mapping⟩ := by
  cases rendered : tree.rendering options with
  | error cause =>
      rw [rendered] at succeeds
      cases succeeds
  | ok rendering =>
      cases rendering with
      | mk text mapping =>
          cases mapping with
          | none =>
              rw [rendered] at succeeds
              cases succeeds
          | some mapping => exact ⟨text, mapping, rfl⟩

/-! ### The pieces of a join -/

theorem joinedPieces_congr {left right : List TracedText}
    (same : left.map TracedText.text = right.map TracedText.text) :
    joinedPieces left = joinedPieces right := by
  have fromTexts (children : List TracedText) : joinedPieces children =
      (children.map TracedText.text).mapIdx fun index text => .copy index 0 (utf16Length text) := by
    rw [joinedPieces, List.mapIdx_eq_zipIdx_map, List.mapIdx_eq_zipIdx_map, List.zipIdx_map,
      List.map_map]
    rfl
  rw [fromTexts, fromTexts, same]

theorem map_joinedPieces {β : Type} {fromPiece : Piece → β} {fromChild : TracedText → β}
    {children : List TracedText}
    (same : ∀ index child, children[index]? = some child →
      fromPiece (.copy index 0 (utf16Length child.text)) = fromChild child) :
    (joinedPieces children).map fromPiece = children.map fromChild := by
  have alike : children.zipIdx.map (fun entry =>
      fromPiece (.copy entry.2 0 (utf16Length entry.1.text))) =
        children.zipIdx.map (fromChild ∘ Prod.fst) := by
    apply List.map_congr_left
    intro entry member
    obtain ⟨child, index⟩ := entry
    exact same index child (List.mk_mem_zipIdx_iff_getElem?.mp member)
  rw [joinedPieces, List.mapIdx_eq_zipIdx_map, List.map_map]
  exact alike.trans (by rw [← List.map_map, List.zipIdx_map_fst])

theorem flatMap_joinedPieces {β : Type} {fromPiece : Piece → List β}
    {fromChild : TracedText → List β} {children : List TracedText}
    (same : ∀ index child, children[index]? = some child →
      fromPiece (.copy index 0 (utf16Length child.text)) = fromChild child) :
    (joinedPieces children).flatMap fromPiece = children.flatMap fromChild := by
  rw [List.flatMap_def, List.flatMap_def, map_joinedPieces same]

theorem any_joinedPieces {fromPiece : Piece → Bool} {fromChild : TracedText → Bool}
    {children : List TracedText}
    (same : ∀ index child, children[index]? = some child →
      fromPiece (.copy index 0 (utf16Length child.text)) = fromChild child) :
    (joinedPieces children).any fromPiece = children.any fromChild := by
  have alike := congrArg (fun answers => answers.any id) (map_joinedPieces same)
  rwa [List.any_map, List.any_map] at alike

theorem exists_of_mem_joinedPieces {children : List TracedText} {piece : Piece}
    (member : piece ∈ joinedPieces children) :
    ∃ index child, children[index]? = some child ∧
      piece = .copy index 0 (utf16Length child.text) := by
  rw [joinedPieces, List.mapIdx_eq_zipIdx_map] at member
  obtain ⟨⟨child, index⟩, inZip, isPiece⟩ := List.mem_map.mp member
  exact ⟨index, child, List.mk_mem_zipIdx_iff_getElem?.mp inZip, isPiece.symm⟩

end SourceWeave.SourceTree
