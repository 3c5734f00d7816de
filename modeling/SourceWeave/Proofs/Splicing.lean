import SourceWeave.Proofs.EditLists
import SourceWeave.Proofs.Outcomes
import SourceWeave.SourceTree.Weave

/-!
Edits cell by cell. An edited text has the cells that are left between the edits, with a
segment at the start of each stretch, and silent cells for the replacements. Edits behind
a boundary can be made before those in front of it, and edits of two texts can be
made before the texts are put together.
-/

set_option autoImplicit false

namespace SourceWeave

namespace Cell

/-- The cells that edits leave from `start` on, with replacements that say nothing. -/
def spliced (cells : List Cell) (start : Nat) : List Edit → List Cell
  | [] => headed (Utf16.cut character start (Utf16.extent character cells) cells)
  | edit :: rest =>
      headed (Utf16.cut character start edit.start cells) ++
        (edit.replacement.toList.map silent ++ spliced cells edit.stop rest)

theorem spliced_none (cells : List Cell) (start : Nat) :
    spliced cells start [] =
      headed (Utf16.cut character start (Utf16.extent character cells) cells) :=
  rfl

theorem spliced_cons (cells : List Cell) (start : Nat) (edit : Edit) (rest : List Edit) :
    spliced cells start (edit :: rest) =
      headed (Utf16.cut character start edit.start cells) ++
        (edit.replacement.toList.map silent ++ spliced cells edit.stop rest) :=
  rfl

theorem headed_spliced (cells : List Cell) (start : Nat) (edits : List Edit) :
    headed (spliced cells start edits) = spliced cells start edits := by
  induction edits generalizing start with
  | nil => exact headed_headed _
  | cons edit rest ih =>
      have restHeaded : headed (edit.replacement.toList.map silent ++
          spliced cells edit.stop rest) =
            edit.replacement.toList.map silent ++ spliced cells edit.stop rest := by
        rw [headed_append _ (ih edit.stop), headed_silent]
      rw [spliced, headed_append _ restHeaded, headed_headed]

theorem spliced_nil {cells : List Cell} (isHeaded : headed cells = cells) :
    spliced cells 0 [] = cells := by
  rw [spliced, Utf16.cut_whole, isHeaded]

theorem exists_spliced_single {cells : List Cell} (isHeaded : headed cells = cells) {edit : Edit}
    (aligned : Utf16.Aligned (cells.map character) edit.start) :
    ∃ front rest back, cells = front ++ rest ∧ Utf16.extent character front = edit.start ∧
      headed back = back ∧ spliced cells 0 [edit] = front ++ back ∧
      ∀ start, spliced cells start [edit] =
        headed (Utf16.cut character start edit.start cells) ++ back := by
  obtain ⟨front, rest, whole, frontExtent⟩ := Utf16.exists_split_of_aligned aligned
  have frontCut : Utf16.cut character 0 edit.start cells = front := by
    rw [whole, ← frontExtent, Utf16.cut_append_of_le (Nat.le_refl _), Utf16.cut_whole]
  have frontHeaded : headed front = front := by
    rw [← frontCut]
    exact headed_cut_zero isHeaded _
  refine ⟨front, rest, edit.replacement.toList.map silent ++ spliced cells edit.stop [], whole,
    frontExtent, ?_, ?_, ?_⟩
  · rw [headed_append _ (headed_spliced cells edit.stop []), headed_silent]
  · rw [spliced_cons, frontCut, frontHeaded]
  · exact fun start => spliced_cons cells start edit []

/-- The last edit can be made before the others, which lie in front of it. -/
theorem spliced_concat {cells : List Cell} (isHeaded : headed cells = cells) {last : Edit}
    (aligned : Utf16.Aligned (cells.map character) last.start) {others : List Edit}
    (inFront : ∀ edit ∈ others, edit.start ≤ last.start ∧ edit.stop ≤ last.start) {start : Nat}
    (fromFront : start ≤ last.start) :
    spliced (spliced cells 0 [last]) start others = spliced cells start (others ++ [last]) := by
  obtain ⟨front, rest, back, whole, frontExtent, backHeaded, editedOnce, editedFrom⟩ :=
    exists_spliced_single isHeaded aligned
  have sameFront (first stop : Nat) (within : stop ≤ last.start) (behind : List Cell) :
      Utf16.cut character first stop (front ++ behind) =
        Utf16.cut character first stop cells := by
    have inText : stop ≤ Utf16.extent character front := frontExtent ▸ within
    rw [whole, Utf16.cut_append_of_le inText, Utf16.cut_append_of_le inText]
  rw [editedOnce]
  induction others generalizing start with
  | nil =>
      have fromText : start ≤ Utf16.extent character front := frontExtent ▸ fromFront
      have cutFront := sameFront start last.start (Nat.le_refl _) []
      rw [List.append_nil, ← frontExtent] at cutFront
      rw [List.nil_append, editedFrom, spliced_none, Utf16.extent_append,
        Utf16.cut_append_of_across fromText, Utf16.cut_whole, headed_append _ backHeaded,
        cutFront, frontExtent]
  | cons edit further ih =>
      obtain ⟨startBefore, stopBefore⟩ := inFront edit List.mem_cons_self
      have editedFurther := ih
        (fun other member => inFront other (List.mem_cons_of_mem edit member)) stopBefore
      rw [List.cons_append, spliced_cons, spliced_cons, sameFront start edit.start startBefore,
        editedFurther]

theorem spliced_shifted (front back : List Cell) (start : Nat) (edits : List Edit) :
    spliced (front ++ back) (Utf16.extent character front + start)
        (edits.map (Edit.shifted (Utf16.extent character front))) =
      spliced back start edits := by
  induction edits generalizing start with
  | nil =>
      rw [List.map_nil, spliced_none, spliced_none, Utf16.extent_append, Utf16.cut_append_shift]
  | cons edit rest ih =>
      rw [List.map_cons, spliced_cons, spliced_cons, Edit.shifted_start, Edit.shifted_stop,
        Edit.shifted_replacement, Utf16.cut_append_shift, ih]

theorem spliced_append {front back : List Cell} (backHeaded : headed back = back)
    {early : List Edit}
    (inFront : ∀ edit ∈ early, edit.start ≤ Utf16.extent character front ∧
      edit.stop ≤ Utf16.extent character front)
    (late : List Edit) {start : Nat} (fromFront : start ≤ Utf16.extent character front) :
    spliced (front ++ back) start
        (early ++ late.map (Edit.shifted (Utf16.extent character front))) =
      spliced front start early ++ spliced back 0 late := by
  induction early generalizing start with
  | nil =>
      rw [List.nil_append]
      cases late with
      | nil =>
          rw [List.map_nil, spliced_none, Utf16.extent_append,
            Utf16.cut_append_of_across fromFront, headed_append _ (headed_cut_zero backHeaded _),
            spliced_none, spliced_none, headed_cut_zero backHeaded]
      | cons edit rest =>
          -- The copy in front of the first late edit runs over the seam of the two texts.
          rw [List.map_cons, spliced_cons, Edit.shifted_start, Edit.shifted_stop,
            Edit.shifted_replacement, Utf16.cut_append_of_across fromFront,
            headed_append _ (headed_cut_zero backHeaded _), spliced_shifted, spliced_none,
            spliced_cons, headed_cut_zero backHeaded, List.append_assoc]
  | cons edit others ih =>
      obtain ⟨startBefore, stopBefore⟩ := inFront edit List.mem_cons_self
      have further := ih
        (fun other member => inFront other (List.mem_cons_of_mem edit member)) stopBefore
      rw [List.cons_append, spliced_cons, spliced_cons, Utf16.cut_append_of_le startBefore,
        further, List.append_assoc, List.append_assoc]

end Cell

end SourceWeave
