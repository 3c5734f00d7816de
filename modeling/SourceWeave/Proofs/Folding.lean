import Mathlib.Data.List.Chain
import SourceWeave.Proofs.TextAlone

/-!
Plain texts that are made one as children are added. However a node came to be, no two of them
are left side by side, and what is woven of it is what each child that was ever added would have
given by itself.
-/

set_option autoImplicit false

namespace SourceWeave.SourceTree

open TracedText (Alike)

def isAnonymous : SourceTree → Bool
  | .plain _ none => true
  | _ => false

theorem isAnonymous_iff {tree : SourceTree} :
    tree.isAnonymous = true ↔ ∃ text, tree = .plain text none := by
  constructor
  · intro anonymous
    unfold isAnonymous at anonymous
    split at anonymous
    · rename_i text
      exact ⟨text, rfl⟩
    · cases anonymous
  · intro isPlain
    obtain ⟨text, isPlain⟩ := isPlain
    rw [isPlain, isAnonymous]

def Folded (children : List SourceTree) : Prop :=
  children.IsChain fun left right => ¬ (left.isAnonymous = true ∧ right.isAnonymous = true)

/-- A plain text is held behind another only if one of the two has an identity. -/
theorem Folded.addChild {held : List SourceTree} (folded : Folded held) (child : SourceTree) :
    Folded (addChild held child) := by
  unfold SourceTree.addChild
  split
  · -- The text that is made of two has the neighbour that the first of them had.
    rename_i front back isLast
    rw [← List.dropLast_append_getLast? _ isLast, Folded, List.isChain_append] at folded
    rw [Folded, List.isChain_append]
    refine ⟨folded.1, List.isChain_singleton _, ?_⟩
    intro last isBefore next isNext together
    exact folded.2.2 last isBefore (.plain front none) rfl ⟨together.1, rfl⟩
  · rename_i child _ _ notBoth
    rw [Folded, List.isChain_append]
    refine ⟨folded, List.isChain_singleton child, ?_⟩
    intro last isLast next isNext together
    rw [List.head?_singleton, Option.mem_some_iff] at isNext
    obtain ⟨front, isFront⟩ := isAnonymous_iff.mp together.1
    obtain ⟨back, isBack⟩ := isAnonymous_iff.mp together.2
    rw [isFront] at isLast
    exact notBoth front back isLast (isNext.trans isBack)

theorem folded_foldl_addChild {held : List SourceTree} (folded : Folded held)
    (children : List SourceTree) : Folded (children.foldl addChild held) := by
  induction children generalizing held with
  | nil => exact folded
  | cons child rest ih => exact ih (folded.addChild child)

/-! ### What is woven of them -/

variable {withMap : Bool}

theorem weaveJoined_congr {left right : List TracedText} (alike : Alike left right)
    (sameEntries : left.flatMap TracedText.entries = right.flatMap TracedText.entries) :
    weaveJoined withMap left = weaveJoined withMap right := by
  have sameFailure :
      failure? (weaveJoined withMap left) = failure? (weaveJoined withMap right) := by
    cases withMap with
    | true => rw [failure?_weaveJoined, failure?_weaveJoined, sameEntries]
    | false => rw [failure?_weaveJoined_unseen, failure?_weaveJoined_unseen]
  have same : (weaveJoined withMap left).map id = weaveJoined withMap right := by
    apply map_eq_of_failure? sameFailure
    intro first second isFirst isSecond
    have firstJoined := TracedText.joinOf_of_weaveJoined isFirst
    have secondJoined := TracedText.joinOf_of_weaveJoined isSecond
    exact (firstJoined.congr (alike.seen withMap)).unique secondJoined
  rwa [Except.map_id, id] at same

theorem meanings_plain (text : String) (identity : Option String) (rest : List SourceTree) :
    meanings withMap (.plain text identity :: rest) =
      (weavePlain text identity :: ·) <$> meanings withMap rest := by
  rw [meanings, meaning]
  rfl

/-- To hold a child among the others makes the same as to leave it by itself. -/
theorem weaveJoined_addChild (held rest : List SourceTree) (child : SourceTree) :
    meanings withMap (addChild held child ++ rest) >>= weaveJoined withMap =
      meanings withMap (held ++ child :: rest) >>= weaveJoined withMap := by
  rcases addChild_eq_or held child with behind | ⟨lead, front, back, whole, isPlain, madeOne⟩
  · rw [behind, List.append_assoc, List.singleton_append]
  · rw [madeOne, whole, isPlain, List.append_assoc, List.append_assoc, meanings_append,
      meanings_append lead, List.singleton_append, List.singleton_append, meanings_plain,
      meanings_plain, meanings_plain]
    cases meanings withMap lead with
    | error cause => rfl
    | ok first =>
        cases meanings withMap rest with
        | error cause => rfl
        | ok further =>
            change weaveJoined withMap (first ++ ([weavePlain (front ++ back) none] ++ further)) =
              weaveJoined withMap
                (first ++ ([weavePlain front none, weavePlain back none] ++ further))
            apply weaveJoined_congr
            · exact (Alike.refl first).append
                ((alike_plain front back).append (Alike.refl further))
            · rw [List.flatMap_append, List.flatMap_append, List.flatMap_append,
                List.flatMap_append]
              rfl

theorem weaveJoined_foldl_addChild (held children : List SourceTree) :
    meanings withMap (children.foldl addChild held) >>= weaveJoined withMap =
      meanings withMap (held ++ children) >>= weaveJoined withMap := by
  induction children generalizing held with
  | nil => rw [List.append_nil]; rfl
  | cons child rest ih => rw [List.foldl_cons, ih, weaveJoined_addChild]

/-- A node made of some children to which others are added holds no two plain texts without
identity side by side. It is woven, or fails to be, as one whole copy of each child by itself. -/
theorem weave_joined_added (withMap : Bool) (start added : List SourceTree) :
    let held := added.foldl addChild (mergeChildren start)
    Folded held ∧
      (SourceTree.joined held).weave withMap = (do
        let texts ← (start ++ added).mapM (weave withMap)
        let copies := texts.mapIdx fun index text => Piece.copy index 0 (utf16Length text.text)
        assemble texts copies withMap) := by
  intro held
  have heldAll : held = (start ++ added).foldl addChild [] := by
    rw [List.foldl_append]
    rfl
  constructor
  · rw [heldAll]
    exact folded_foldl_addChild List.isChain_nil _
  · rw [weave_eq_meaning, meaning, heldAll, mapM_weave]
    exact weaveJoined_foldl_addChild [] (start ++ added)

end SourceWeave.SourceTree
