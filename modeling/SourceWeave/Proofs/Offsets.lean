import SourceWeave.Proofs.Tables
import SourceWeave.Proofs.TextIndex

/-!
Places and offsets. Looking up the offset of a place undoes looking up the place of an offset:
an offset is found exactly if it lies within the text and at the place. So a text has something at
a place if it goes on with that from some offset there.
-/

set_option autoImplicit false

namespace SourceWeave

theorem startsFrom_pairwise {measure : Char → Nat} (positive : 0 < measure '\n') (offset : Nat)
    (characters : List Char) :
    (startsFrom measure offset characters).Pairwise fun earlier later => earlier < later := by
  induction characters generalizing offset with
  | nil => exact List.Pairwise.nil
  | cons character rest ih =>
      unfold startsFrom
      split
      · refine List.pairwise_cons.mpr ⟨?_, ih _⟩
        intro later member
        exact (mem_startsFrom measure positive member).1
      · exact ih _

/-- From some offset at the place on, a text begins with what is looked for. An offset inside a
character stands for the start of it. -/
def Occurs (expected text : String) (place : Position) : Prop :=
  ∃ offset, offset ≤ utf16Length text ∧ Position.ofOffset text.toList offset = place ∧
    expected.toList <+: Utf16.drop offset text.toList

namespace IndexedText

variable {text : String}

theorem lineStarts_pairwise (text : String) :
    (ofString text).index.lineStarts.toList.Pairwise fun earlier later => earlier < later := by
  rw [lineStarts_ofString]
  refine List.pairwise_cons.mpr ⟨?_, startsFrom_pairwise (Utf16.width_pos _) 0 _⟩
  intro start member
  exact (mem_startsFrom Utf16.width (Utf16.width_pos _) member).1

theorem le_length_of_mem_lineStarts {start : Nat}
    (member : start ∈ (ofString text).index.lineStarts.toList) : start ≤ utf16Length text := by
  rw [lineStarts_ofString] at member
  rcases List.mem_cons.mp member with isFirst | later
  · rw [isFirst]
    exact Nat.zero_le _
  · have bounds := mem_startsFrom Utf16.width (Utf16.width_pos _) later
    rw [measured_width, Nat.zero_add] at bounds
    exact bounds.2

theorem lineIndexAt_lt (text : String) (offset : Nat) :
    (ofString text).lineIndexAt offset < (ofString text).index.lineStarts.toList.length := by
  have counted := congrArg (fun characters => (startsFrom Utf16.width 0 characters).length)
    (Utf16.take_append_drop offset text.toList)
  simp only [startsFrom_append, List.length_append] at counted
  rw [lineIndexAt_eq, lineStarts_ofString, List.length_cons]
  omega

theorem lineIndexAt_lt_lineCount (text : String) (offset : Nat) :
    (ofString text).lineIndexAt offset < (ofString text).lineCount := by
  rw [lineCount, ← Array.length_toList]
  exact lineIndexAt_lt text offset

theorem ofOffset_eq {offset : Nat} (within : offset ≤ utf16Length text) :
    Position.ofOffset text.toList offset =
      ⟨(ofString text).lineIndexAt offset + 1,
        offset - (ofString text).startOf ((ofString text).lineIndexAt offset)⟩ := by
  have found := positionAt_eq within
  rw [positionAt, checkOffset_eq_ok_iff.mpr within] at found
  exact (Except.ok.inj found).symm

def lineStop (text : String) (index : Nat) : Nat :=
  match (ofString text).index.lineStarts.toList[index + 1]? with
  | some next => next - 1
  | none => utf16Length text

section Line

variable {index start : Nat}
  (isStart : (ofString text).index.lineStarts.toList[index]? = some start)

include isStart

theorem start_lt_next {next : Nat}
    (isNext : (ofString text).index.lineStarts.toList[index + 1]? = some next) : start < next := by
  obtain ⟨inText, isAt⟩ := List.getElem?_eq_some_iff.mp isStart
  obtain ⟨nextInText, nextIsAt⟩ := List.getElem?_eq_some_iff.mp isNext
  have before := List.pairwise_iff_getElem.mp (lineStarts_pairwise text) index (index + 1)
    inText nextInText (Nat.lt_succ_self index)
  rwa [isAt, nextIsAt] at before

theorem startOf_of_getElem? : (ofString text).startOf index = start := by
  rw [startOf, ← Array.getElem?_toList, isStart, Option.getD_some]

/-- The line of an offset is the last one that starts at or before it. -/
theorem start_le_iff (offset : Nat) :
    start ≤ offset ↔ index ≤ (ofString text).lineIndexAt offset := by
  have failsOn : FailsOn (fun start : Nat => decide (start ≤ offset))
      (ofString text).index.lineStarts.toList := by
    refine List.Pairwise.imp ?_ (lineStarts_pairwise text)
    intro earlier later before reached
    have atMost := of_decide_eq_true reached
    exact decide_eq_true (by omega)
  have firstLine : (ofString text).index.lineStarts.toList[0]? = some 0 := by
    rw [lineStarts_ofString, List.getElem?_cons_zero]
  have isReached := failsOn.passes_iff isStart
  have firstReached := (failsOn.passes_iff firstLine).mp (decide_eq_true (Nat.zero_le offset))
  rw [decide_eq_true_iff] at isReached
  rw [isReached, lineIndexAt]
  omega

theorem lineIndexAt_eq_iff {offset : Nat} :
    (ofString text).lineIndexAt offset = index ↔
      start ≤ offset ∧ ∀ next, (ofString text).index.lineStarts.toList[index + 1]? = some next →
        offset < next := by
  constructor
  · intro isIndex
    refine ⟨(start_le_iff isStart offset).mpr (Nat.le_of_eq isIndex.symm), ?_⟩
    intro next isNext
    have notReached := mt (start_le_iff isNext offset).mp
    rw [isIndex] at notReached
    exact Nat.lt_of_not_le (notReached (Nat.not_succ_le_self index))
  · intro inLine
    obtain ⟨fromStart, beforeNext⟩ := inLine
    have reached := (start_le_iff isStart offset).mp fromStart
    apply Nat.le_antisymm _ reached
    apply Nat.le_of_not_lt
    intro behind
    have inText := Nat.lt_of_le_of_lt behind (lineIndexAt_lt text offset)
    have isNext := List.getElem?_eq_getElem inText
    have atMost := (start_le_iff isNext offset).mpr behind
    have before := beforeNext _ isNext
    omega

theorem offsetAt_of_start (column : Nat) :
    (ofString text).offsetAt (index + 1) column =
      if lineStop text index - start < column then
        .error (.outOfRange .column column (lineStop text index - start))
      else .ok (start + column) := by
  have inText := (List.getElem?_eq_some_iff.mp isStart).1
  have isLine : ¬ (index + 1 = 0 ∨ (ofString text).lineCount < index + 1) := by
    rw [lineCount, ← Array.length_toList]
    omega
  rw [offsetAt, lineLength, if_neg isLine, ← Array.getElem?_toList, length_ofString,
    Nat.add_sub_cancel, startOf_of_getElem? isStart]
  rfl

theorem start_le_lineStop : start ≤ lineStop text index := by
  unfold lineStop
  split
  · rename_i next isNext
    exact Nat.le_sub_one_of_lt (start_lt_next isStart isNext)
  · exact le_length_of_mem_lineStarts (List.mem_of_getElem? isStart)

theorem le_lineStop_iff {offset : Nat}
    (fromStart : start ≤ offset) :
    offset ≤ lineStop text index ↔
      offset ≤ utf16Length text ∧ (ofString text).lineIndexAt offset = index := by
  rw [lineIndexAt_eq_iff isStart, and_iff_right fromStart, lineStop]
  cases isNext : (ofString text).index.lineStarts.toList[index + 1]? with
  | none => simp
  | some next =>
      have before := start_lt_next isStart isNext
      have inside := le_length_of_mem_lineStarts (List.mem_of_getElem? isNext)
      simp only [Option.some.injEq, forall_eq']
      omega

end Line

theorem startOf_lineIndexAt_le (text : String) (offset : Nat) :
    (ofString text).startOf ((ofString text).lineIndexAt offset) ≤ offset := by
  have isStart := List.getElem?_eq_getElem (lineIndexAt_lt text offset)
  rw [startOf_of_getElem? isStart]
  exact (start_le_iff isStart offset).mpr (Nat.le_refl _)

/-! ### The offset of a place -/

theorem offsetAt_eq_ok_iff {line column offset : Nat} :
    (ofString text).offsetAt line column = .ok offset ↔
      offset ≤ utf16Length text ∧ Position.ofOffset text.toList offset = ⟨line, column⟩ := by
  constructor
  · intro found
    cases line with
    | zero =>
        rw [offsetAt, lineLength, if_pos (Or.inl rfl)] at found
        cases found
    | succ index =>
        by_cases inText : index < (ofString text).index.lineStarts.toList.length
        · have isStart := List.getElem?_eq_getElem inText
          rw [offsetAt_of_start isStart] at found
          split at found
          · cases found
          · rename_i notBehind
            cases found
            have toStop : (ofString text).index.lineStarts.toList[index] + column ≤
                lineStop text index := by
              have forward := start_le_lineStop isStart
              omega
            obtain ⟨within, isIndex⟩ :=
              (le_lineStop_iff isStart (Nat.le_add_right _ _)).mp toStop
            refine ⟨within, ?_⟩
            rw [ofOffset_eq within, isIndex, startOf_of_getElem? isStart, Nat.add_sub_cancel_left]
        · have noLine : (ofString text).lineCount < index + 1 := by
            rw [lineCount, ← Array.length_toList]
            omega
          rw [offsetAt, lineLength, if_pos (Or.inr noLine)] at found
          cases found
  · intro lies
    obtain ⟨within, place⟩ := lies
    rw [ofOffset_eq within] at place
    have isStart := List.getElem?_eq_getElem (lineIndexAt_lt text offset)
    rw [startOf_of_getElem? isStart] at place
    have fromStart := (start_le_iff isStart offset).mpr (Nat.le_refl _)
    have toStop := (le_lineStop_iff isStart fromStart).mpr ⟨within, rfl⟩
    cases place
    rw [offsetAt_of_start isStart, if_neg (by omega), Nat.add_sub_cancel' fromStart]

/-! ### What stands at a place -/

theorem toList_bytesBetween_drop (text : String) (offset : Nat) :
    ((ofString text).bytesBetween (Utf16.byteLength (Utf16.take offset text.toList))
      (ofString text).index.bytes).toList = Utf16.drop offset text.toList := by
  have whole : text.toList = Utf16.take offset text.toList ++ Utf16.drop offset text.toList ++
      [] := by
    rw [List.append_nil, Utf16.take_append_drop]
  have rest := bytesBetween_eq whole
  rw [Utf16.take_append_drop, ← bytes_ofString] at rest
  rw [rest, String.toList_ofList]

theorem standsAt_iff {expected : String} {line column : Nat} :
    (ofString text).standsAt expected line column = true ↔ Occurs expected text ⟨line, column⟩ := by
  cases found : (ofString text).offsetAt line column with
  | error cause =>
      rw [standsAt, found]
      refine iff_of_false (fun impossible => by cases impossible) ?_
      intro occurs
      obtain ⟨offset, within, place, _⟩ := occurs
      rw [offsetAt_eq_ok_iff.mpr ⟨within, place⟩] at found
      cases found
  | ok offset =>
      obtain ⟨within, place⟩ := offsetAt_eq_ok_iff.mp found
      rw [standsAt, found, ok_bind, byteOffset_eq within]
      simp only
      rw [toList_bytesBetween_drop, List.isPrefixOf_iff_prefix]
      constructor
      · intro begins
        exact ⟨offset, within, place, begins⟩
      · intro occurs
        obtain ⟨other, otherWithin, otherPlace, begins⟩ := occurs
        have same := offsetAt_eq_ok_iff.mpr ⟨otherWithin, otherPlace⟩
        rw [found] at same
        cases same
        exact begins

end IndexedText

instance (expected text : String) (place : Position) : Decidable (Occurs expected text place) :=
  decidable_of_iff _ (@IndexedText.standsAt_iff text expected place.line place.column)

end SourceWeave
