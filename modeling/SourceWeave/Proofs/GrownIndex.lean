import Mathlib.Data.List.Infix
import SourceWeave.Proofs.Offsets

/-!
An index that grows. Whichever way each piece of a text is gone through, by its bytes or by its
characters, what is noted is told by the text that the pieces make up: a line starts at the front
of the text and behind every newline, at the length of what stands before, in units and in bytes.
-/

set_option autoImplicit false

namespace SourceWeave

/-- The fronts of a text that end in a newline, the shortest first. -/
def newlineFronts (characters : List Char) : List (List Char) :=
  characters.inits.filter fun front => front.getLast? = some '\n'

theorem newlineFronts_cons (character : Char) (rest : List Char) :
    newlineFronts (character :: rest) =
      (if character = '\n' then [[character]] else []) ++
        (newlineFronts rest).map (character :: ·) := by
  rw [newlineFronts, newlineFronts, List.inits_cons]
  cases rest with
  | nil => by_cases newline : character = '\n' <;> simp [newline]
  | cons next others =>
      have sameEnds : (fun front : List Char => decide (front.getLast? = some '\n')) ∘
            (character :: ·) ∘ (next :: ·) =
          (fun front => decide (front.getLast? = some '\n')) ∘ (next :: ·) := by
        funext front
        simp
      by_cases newline : character = '\n'
      · subst newline
        simp [List.filter_map, sameEnds]
      · simp [newline, List.filter_map, sameEnds]

theorem startsFrom_eq (measure : Char → Nat) (offset : Nat) (characters : List Char) :
    startsFrom measure offset characters =
      (newlineFronts characters).map fun front => offset + measured measure front := by
  induction characters generalizing offset with
  | nil => rfl
  | cons character rest ih =>
      have further : (newlineFronts rest).map
            ((fun front => offset + measured measure front) ∘ (character :: ·)) =
          startsFrom measure (offset + measure character) rest := by
        rw [ih]
        apply List.map_congr_left
        intro front _
        exact (Nat.add_assoc _ _ _).symm
      rw [newlineFronts_cons, List.map_append, List.map_map, further, startsFrom]
      split
      · rfl
      · rfl

/-! ### What an index holds -/

/-- What the index of a text holds, told from the text alone. -/
structure LineIndex.Describes (index : LineIndex) (text : String) : Prop where
  lineStarts : index.lineStarts.toList =
    0 :: (newlineFronts text.toList).map fun front => utf16Length (String.ofList front)
  byteStarts : index.byteStarts.toList =
    0 :: (newlineFronts text.toList).map fun front => (String.ofList front).utf8ByteSize
  units : index.units = utf16Length text
  bytes : index.bytes = text.utf8ByteSize
  ascii : index.ascii = true ↔ ∀ character ∈ text.toList, character.toNat < 128

namespace IndexedText

theorem describes_ofString (text : String) : (ofString text).index.Describes text where
  lineStarts := by
    rw [lineStarts_ofString, startsFrom_eq]
    simp only [measured_width, Nat.zero_add, utf16Length, String.toList_ofList]
  byteStarts := by
    rw [byteStarts_ofString, startsFrom_eq]
    simp only [measured_utf8Size, Nat.zero_add, utf8ByteSize_eq, String.toList_ofList]
  units := length_ofString text
  bytes := by rw [bytes_ofString, utf8ByteSize_eq]
  ascii := by rw [ascii_ofString]; simp

theorem byteStarts_pairwise (text : String) :
    (ofString text).index.byteStarts.toList.Pairwise fun earlier later => earlier < later := by
  rw [byteStarts_ofString]
  refine List.pairwise_cons.mpr ⟨?_, startsFrom_pairwise (Char.utf8Size_pos _) 0 _⟩
  intro start member
  exact (mem_startsFrom Char.utf8Size (Char.utf8Size_pos _) member).1

theorem foldl_append_ofString (front : String) (pieces : List String) :
    pieces.foldl append (ofString front) = ofString (front ++ String.join pieces) := by
  induction pieces generalizing front with
  | nil => simp
  | cons piece rest ih =>
      rw [List.foldl_cons, append_ofString, ih, String.join_cons, String.append_assoc]

/-- A text that is appended piece by piece is indexed as it is when it is indexed as a whole: by
the places behind its newlines, in units and in bytes, both in increasing order. -/
theorem foldl_append_eq_ofString (pieces : List String) :
    pieces.foldl append empty = ofString (String.join pieces) ∧
      (pieces.foldl append empty).index.Describes (String.join pieces) ∧
        (pieces.foldl append empty).index.lineStarts.toList.Pairwise (· < ·) ∧
          (pieces.foldl append empty).index.byteStarts.toList.Pairwise (· < ·) := by
  have grown : pieces.foldl append empty = ofString (String.join pieces) := by
    have isEmpty : empty = ofString "" := (append_empty empty).symm
    rw [isEmpty, foldl_append_ofString, String.empty_append]
  rw [grown]
  exact ⟨rfl, describes_ofString _, lineStarts_pairwise _, byteStarts_pairwise _⟩

example : (["ä\n", "b\nc", "😀\n"].foldl append empty).index =
    ⟨#[0, 2, 4, 8], #[0, 3, 5, 11], 8, 11, false⟩ := by decide +kernel

end IndexedText

end SourceWeave
