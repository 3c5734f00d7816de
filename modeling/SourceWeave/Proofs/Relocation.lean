import SourceWeave.Proofs.Correspondence
import SourceWeave.Proofs.GrownIndex
import SourceWeave.Proofs.GuardedAssembly

/-!
Places of a slice in the text that it is appended to. To move a place from where the slice starts to
where the text ends is to look up its offset in the index that has grown by the slice: behind the
first line of the slice both count the same newlines, and on it both count on from the text's end.
-/

set_option autoImplicit false

namespace SourceWeave

section Cuts

variable {characters : List Char} {start offset stop : Nat}
  (fromStart : start ≤ offset) (toStop : offset ≤ stop)
  (startAligned : Utf16.Aligned characters start) (aligned : Utf16.Aligned characters offset)

include fromStart toStop startAligned aligned

theorem Utf16.take_between :
    take (offset - start) (between start stop characters) = between start offset characters := by
  rw [← between_append_between fromStart toStop,
    ← length_between fromStart startAligned aligned, take_length_append]

theorem Position.ofOffset_append_between (output : List Char) :
    ofOffset (output ++ Utf16.between start stop characters)
        (Utf16.length output + (offset - start)) =
      (ofOffset characters offset).relocate (ofOffset characters start) (first.behind output) := by
  have taken := Utf16.take_between fromStart toStop startAligned aligned
  have landed : Utf16.Aligned (output ++ Utf16.between start stop characters)
      (Utf16.length output + (offset - start)) := by
    rw [Utf16.aligned_append_shift_iff, Utf16.Aligned, taken,
      Utf16.length_between fromStart startAligned aligned]
  rw [ofOffset_of_aligned landed, Utf16.take_append_shift, taken, behind_append,
    ofOffset_of_aligned aligned, ofOffset_of_aligned startAligned,
    relocate_behind_take fromStart]

end Cuts

/-! ### Behind a text -/

theorem Position.ofOffset_column_le_offset {text : String} {offset : Nat}
    (within : offset ≤ utf16Length text) : (ofOffset text.toList offset).column ≤ offset := by
  rw [IndexedText.ofOffset_eq within]
  exact Nat.sub_le _ _

/-- Where an offset of a child comes to stand if the child is copied from `start` on behind what has
been built, told by both indices and with every number a word. -/
def Guarded.landing (child built : IndexedText) (start offset : Nat) : Guarded Position := do
  let origin ← positionAt child start
  let place ← positionAt child offset
  let moved ← relocate place origin (← endPosition built)
  return ⟨moved.line, ← word moved.column⟩

namespace IndexedText

section Slice

variable (output : String) {child piece : String} {start stop : Nat}
  (isSlice : (ofString child).slice start stop = .ok piece)
  (startAligned : Utf16.Aligned child.toList start)

include isSlice startAligned

theorem length_append_slice (stopAligned : Utf16.Aligned child.toList stop) :
    utf16Length (output ++ piece) = utf16Length output + (stop - start) := by
  obtain ⟨⟨inOrder, _⟩, isPiece⟩ := slice_eq_ok_iff.mp isSlice
  rw [utf16Length, String.toList_append, isPiece, String.toList_ofList, Utf16.length_append,
    Utf16.length_between inOrder startAligned stopAligned, utf16Length]

variable {offset : Nat} (fromStart : start ≤ offset) (toStop : offset ≤ stop)
  (aligned : Utf16.Aligned child.toList offset)

include fromStart toStop aligned

theorem ofOffset_append_slice :
    Position.ofOffset (output ++ piece).toList (utf16Length output + (offset - start)) =
      (Position.ofOffset child.toList offset).relocate (Position.ofOffset child.toList start)
        (ofString output).endPosition := by
  rw [String.toList_append, (slice_eq_ok_iff.mp isSlice).2, String.toList_ofList, utf16Length,
    Position.ofOffset_append_between fromStart toStop startAligned aligned, endPosition_ofString]

variable (stopAligned : Utf16.Aligned child.toList stop)

include stopAligned

theorem positionAt_append_slice :
    ((ofString output).append piece).positionAt (utf16Length output + (offset - start)) =
      .ok ((Position.ofOffset child.toList offset).relocate (Position.ofOffset child.toList start)
        (ofString output).endPosition) := by
  have length := length_append_slice output isSlice startAligned stopAligned
  rw [append_ofString, positionAt_eq (by omega),
    ofOffset_append_slice output isSlice startAligned fromStart toStop aligned]

theorem landing_ofString (childShort : utf16Length child < 2 ^ 32 - 1)
    (grownShort : utf16Length output + (stop - start) < 2 ^ 32 - 1) :
    Guarded.landing (ofString child) (ofString output) start offset =
      pure ((Position.ofOffset child.toList offset).relocate
        (Position.ofOffset child.toList start) (ofString output).endPosition) := by
  have within : offset ≤ utf16Length child := aligned.le_length
  have startWithin : start ≤ utf16Length child := startAligned.le_length
  have length := length_append_slice output isSlice startAligned stopAligned
  have landed := ofOffset_append_slice output isSlice startAligned fromStart toStop aligned
  have grownWithin : utf16Length output + (offset - start) ≤ utf16Length (output ++ piece) := by
    omega
  have line := Position.ofOffset_line_le (output ++ piece).toList
    (utf16Length output + (offset - start))
  have column := Position.ofOffset_column_le_offset grownWithin
  rw [landed, Position.relocate_line_eq_add] at line
  rw [landed] at column
  have fromOrigin := Position.ofOffset_le_ofOffset fromStart within
  rw [Guarded.landing, Guarded.positionAt_ofString childShort, positionAt_eq startWithin,
    Guarded.passed_ok, pure_bind, Guarded.positionAt_ofString childShort, positionAt_eq within,
    Guarded.passed_ok, pure_bind, Guarded.endPosition_ofString (by omega), pure_bind,
    Guarded.relocate_eq fromOrigin (by omega), pure_bind, Guarded.word_of_lt (by omega), pure_bind]

end Slice

/-- A slice of a child is appended to a text that has been built piece by piece. Every boundary of
the slice, moved from where the slice starts to where the text ended, is found in the grown index
behind as many units as it has in front of it, and the end of the slice is the end of the grown
text. Of texts shorter than the largest word no guard fails on the way. -/
theorem slice_lands (pieces : List String) {child : String} {start stop : Nat}
    (inOrder : start ≤ stop) (startAligned : Utf16.Aligned child.toList start)
    (stopAligned : Utf16.Aligned child.toList stop) (childShort : utf16Length child < 2 ^ 32 - 1)
    (grownShort : utf16Length (String.join pieces) + (stop - start) < 2 ^ 32 - 1) :
    let built := pieces.foldl append empty
    let target := built.endPosition
    ∃ piece origin last, (ofString child).slice start stop = .ok piece ∧
      (ofString child).positionAt start = .ok origin ∧
      (ofString child).positionAt stop = .ok last ∧
      (∀ offset, start ≤ offset → offset ≤ stop → Utf16.Aligned child.toList offset →
        ∃ place, (ofString child).positionAt offset = .ok place ∧
          (built.append piece).positionAt (built.length + (offset - start)) =
            .ok (place.relocate origin target) ∧
          Guarded.landing (ofString child) built start offset =
            pure (place.relocate origin target)) ∧
      last.relocate origin target = (built.append piece).endPosition := by
  have isBuilt : pieces.foldl append empty = ofString (String.join pieces) := by
    have grown := foldl_append_ofString "" pieces
    rwa [String.empty_append, ofString, append_empty] at grown
  rw [isBuilt]
  intro built target
  have isSlice := slice_eq_ok_iff.mpr ⟨⟨inOrder, stopAligned.le_length⟩, rfl⟩
  refine ⟨_, _, _, isSlice, positionAt_eq startAligned.le_length,
    positionAt_eq stopAligned.le_length, ?_, ?_⟩
  · intro offset fromStart toStop aligned
    refine ⟨_, positionAt_eq aligned.le_length, ?_,
      landing_ofString _ isSlice startAligned fromStart toStop aligned stopAligned childShort
        grownShort⟩
    rw [length_ofString]
    exact positionAt_append_slice _ isSlice startAligned fromStart toStop aligned stopAligned
  · have atEnd := positionAt_append_slice (String.join pieces) isSlice startAligned inOrder
      (Nat.le_refl stop) stopAligned stopAligned
    rw [append_ofString, ← length_append_slice _ isSlice startAligned stopAligned,
      positionAt_length, Except.ok.injEq, ← append_ofString] at atEnd
    exact atEnd.symm

/-- A slice from the middle of a line behind a line that has been begun: a place of the slice's
first line, and one of its second. -/
theorem slice_lands_lines :
    let child := ofString "a\nb😀c\nd"
    let built := ["x\ny", "😀"].foldl append empty
    built.endPosition = ⟨2, 3⟩ ∧ child.positionAt 3 = .ok ⟨2, 1⟩ ∧
      ∃ piece, child.slice 3 8 = .ok piece ∧
        (built.append piece).positionAt (built.length + 2) = .ok ⟨2, 5⟩ ∧
        (built.append piece).positionAt (built.length + 4) = .ok ⟨3, 0⟩ ∧
        Guarded.landing child built 3 7 = pure ⟨3, 0⟩ ∧
        (built.append piece).endPosition = ⟨3, 1⟩ := by
  intro child built
  have target : built.endPosition = ⟨2, 3⟩ := by decide +kernel
  have isFirst : child.positionAt 3 = .ok ⟨2, 1⟩ := by decide +kernel
  have isBehind : child.positionAt 5 = .ok ⟨2, 3⟩ := by decide +kernel
  have isBelow : child.positionAt 7 = .ok ⟨3, 0⟩ := by decide +kernel
  have isEnd : child.positionAt 8 = .ok ⟨3, 1⟩ := by decide +kernel
  have aligned (offset : Nat) (isCut : offset ∈ [3, 5, 7, 8]) :
      Utf16.Aligned "a\nb😀c\nd".toList offset := by
    revert offset
    decide
  obtain ⟨piece, origin, last, isSlice, isOrigin, isLast, lands, atEnd⟩ :=
    slice_lands ["x\ny", "😀"] (by decide : 3 ≤ 8) (aligned 3 (by decide)) (aligned 8 (by decide))
      (by decide) (by decide)
  obtain ⟨behind, atBehind, foundBehind, _⟩ :=
    lands 5 (by decide) (by decide) (aligned 5 (by decide))
  obtain ⟨below, atBelow, foundBelow, landed⟩ :=
    lands 7 (by decide) (by decide) (aligned 7 (by decide))
  cases isFirst.symm.trans isOrigin
  cases isBehind.symm.trans atBehind
  cases isBelow.symm.trans atBelow
  cases isEnd.symm.trans isLast
  rw [target] at foundBehind foundBelow landed atEnd
  exact ⟨target, isFirst, piece, isSlice, foundBehind, foundBelow, landed, atEnd.symm⟩

end IndexedText

end SourceWeave
