import Mathlib.Data.String.Basic
import SourceWeave.Proofs.Search
import SourceWeave.Proofs.Units
import SourceWeave.Text.Indexed

/-!
What a line index answers. The index of a text holds the offsets behind its
newlines, in units and in bytes; its answers are those of reading the text from
the front.
-/

set_option autoImplicit false

namespace SourceWeave

def measured (measure : Char → Nat) : List Char → Nat
  | [] => 0
  | character :: rest => measure character + measured measure rest

/-- The offsets behind the newlines of characters that are read from an offset on. -/
def startsFrom (measure : Char → Nat) (offset : Nat) : List Char → List Nat
  | [] => []
  | character :: rest =>
      if character = '\n' then
        (offset + measure character) :: startsFrom measure (offset + measure character) rest
      else startsFrom measure (offset + measure character) rest

section Starts

variable (measure : Char → Nat)

theorem measured_append (front back : List Char) :
    measured measure (front ++ back) = measured measure front + measured measure back := by
  induction front with
  | nil => exact (Nat.zero_add _).symm
  | cons character rest ih => rw [List.cons_append, measured, measured, ih, Nat.add_assoc]

theorem startsFrom_append (offset : Nat) (front back : List Char) :
    startsFrom measure offset (front ++ back) =
      startsFrom measure offset front ++
        startsFrom measure (offset + measured measure front) back := by
  induction front generalizing offset with
  | nil => rfl
  | cons character rest ih =>
      have further : offset + measured measure (character :: rest) =
          offset + measure character + measured measure rest := by
        rw [measured, Nat.add_assoc]
      rw [List.cons_append, startsFrom, startsFrom, further]
      split
      · rw [ih, List.cons_append]
      · exact ih _

theorem startsFrom_eq_nil (offset : Nat) {characters : List Char} (noNewline : '\n' ∉ characters) :
    startsFrom measure offset characters = [] := by
  induction characters generalizing offset with
  | nil => rfl
  | cons character rest ih =>
      have different : character ≠ '\n' := fun same => noNewline (same ▸ List.mem_cons_self)
      rw [startsFrom, if_neg different]
      exact ih _ fun member => noNewline (List.mem_cons_of_mem _ member)

theorem mem_startsFrom {offset start : Nat} {characters : List Char}
    (positive : 0 < measure '\n') (member : start ∈ startsFrom measure offset characters) :
    offset < start ∧ start ≤ offset + measured measure characters := by
  induction characters generalizing offset with
  | nil => cases member
  | cons character rest ih =>
      have further : measured measure (character :: rest) =
          measure character + measured measure rest := rfl
      unfold startsFrom at member
      split at member
      · rename_i newline
        subst newline
        rcases List.mem_cons.mp member with same | later
        · omega
        · have tail := ih later
          omega
      · have tail := ih member
        omega

theorem length_startsFrom (offset : Nat) (place : Position) (characters : List Char) :
    place.line + (startsFrom measure offset characters).length =
      (place.behind characters).line := by
  induction characters generalizing offset place with
  | nil => rfl
  | cons character rest ih =>
      rw [Position.behind_cons, ← ih (offset + measure character), startsFrom, Position.next]
      split
      · rw [List.length_cons]
        simp only
        omega
      · rfl

theorem length_startsFrom_eq (other : Char → Nat) (offset start : Nat) (characters : List Char) :
    (startsFrom measure offset characters).length =
      (startsFrom other start characters).length := by
  have counted := length_startsFrom measure offset Position.first characters
  rw [← length_startsFrom other start] at counted
  exact Nat.add_left_cancel counted

theorem getLastD_startsFrom_width (offset start : Nat) (place : Position) (characters : List Char)
    (apart : start + place.column = offset) :
    (startsFrom Utf16.width offset characters).getLastD start + (place.behind characters).column =
      offset + Utf16.length characters := by
  induction characters generalizing offset start place with
  | nil => exact apart
  | cons character rest ih =>
      rw [Position.behind_cons, startsFrom, Position.next, Utf16.length_cons, ← Nat.add_assoc]
      split
      · rw [List.getLastD_cons]
        exact ih _ _ ⟨place.line + 1, 0⟩ rfl
      · apply ih
        simp only
        omega

end Starts

theorem exists_lastLine (characters : List Char) :
    ∃ lead line, characters = lead ++ line ∧ '\n' ∉ line ∧
      ∀ (measure : Char → Nat) (offset : Nat),
        (startsFrom measure offset characters).getLastD offset =
          offset + measured measure lead := by
  by_cases newline : '\n' ∈ characters
  · obtain ⟨back, front, reversed, noNewline⟩ :=
      List.eq_append_cons_of_mem (List.mem_reverse.mpr newline)
    have whole : characters = front.reverse ++ ['\n'] ++ back.reverse := by
      have undone := congrArg List.reverse reversed
      simpa using undone
    refine ⟨front.reverse ++ ['\n'], back.reverse, whole, ?_, ?_⟩
    · exact fun member => noNewline (List.mem_reverse.mp member)
    · intro measure offset
      have noMore : startsFrom measure (offset + measured measure (front.reverse ++ ['\n']))
          back.reverse = [] :=
        startsFrom_eq_nil measure _ fun member => noNewline (List.mem_reverse.mp member)
      rw [whole, startsFrom_append, noMore, List.append_nil, startsFrom_append, startsFrom,
        if_pos rfl, startsFrom, List.getLastD_concat, measured_append, Nat.add_assoc]
      rfl
  · refine ⟨[], characters, rfl, newline, ?_⟩
    intro measure offset
    rw [startsFrom_eq_nil measure offset newline]
    rfl

theorem exists_firstLine (characters : List Char) :
    ∃ line rest, characters = line ++ rest ∧ (line = [] → characters = []) ∧
      ∀ (measure : Char → Nat) (offset : Nat),
        (startsFrom measure offset characters)[0]?.getD (offset + measured measure characters) =
          offset + measured measure line := by
  by_cases newline : '\n' ∈ characters
  · obtain ⟨front, back, whole, noNewline⟩ := List.eq_append_cons_of_mem newline
    refine ⟨front ++ ['\n'], back, by simp [whole], by simp, ?_⟩
    intro measure offset
    rw [whole, startsFrom_append, startsFrom_eq_nil measure offset noNewline, List.nil_append,
      startsFrom, if_pos rfl, List.getElem?_cons_zero, Option.getD_some, measured_append,
      Nat.add_assoc]
    rfl
  · refine ⟨characters, [], (List.append_nil _).symm, fun empty => empty, ?_⟩
    intro measure offset
    rw [startsFrom_eq_nil measure offset newline]
    rfl

theorem measured_width (characters : List Char) :
    measured Utf16.width characters = Utf16.length characters := by
  induction characters with
  | nil => rfl
  | cons character rest ih => rw [measured, Utf16.length_cons, ih]

theorem measured_utf8Size (characters : List Char) :
    measured Char.utf8Size characters = Utf16.byteLength characters := by
  induction characters with
  | nil => rfl
  | cons character rest ih => rw [measured, Utf16.byteLength, ih]

theorem Utf16.byteLength_append (front back : List Char) :
    byteLength (front ++ back) = byteLength front + byteLength back := by
  simp only [← measured_utf8Size, measured_append]

/-! ### Noting starts -/

theorem utf8Size_of_ascii {character : Char} (ascii : character.toNat < 128) :
    character.utf8Size = 1 := by
  apply Char.utf8Size_eq_one_iff.mpr
  exact UInt32.le_iff_toNat_le.mpr (Nat.le_of_lt_succ ascii)

theorem Utf16.width_of_ascii {character : Char} (ascii : character.toNat < 128) :
    width character = 1 :=
  if_pos (by omega)

theorem Utf16.byteLength_of_ascii {characters : List Char}
    (ascii : ∀ character ∈ characters, character.toNat < 128) :
    byteLength characters = length characters := by
  induction characters with
  | nil => rfl
  | cons character rest ih =>
      have small := ascii character List.mem_cons_self
      rw [byteLength, length_cons, utf8Size_of_ascii small, width_of_ascii small,
        ih fun other member => ascii other (List.mem_cons_of_mem _ member)]

theorem Utf16.byteLength_eq_utf8Len (characters : List Char) :
    byteLength characters = String.utf8Len characters := by
  induction characters with
  | nil => rfl
  | cons character rest ih => rw [byteLength, ih, String.utf8Len_cons, Nat.add_comm]

theorem utf8ByteSize_eq (text : String) : text.utf8ByteSize = Utf16.byteLength text.toList := by
  rw [Utf16.byteLength_eq_utf8Len, String.utf8Len_toList]

theorem bytes_of_ascii {text : String} (ascii : ∀ character ∈ text.toList, character.toNat < 128) :
    text.toByteArray.data.toList = text.toList.map Char.toUInt8 := by
  have isText : text = String.ofList text.toList := String.ofList_toList.symm
  rw [isText, String.toByteArray_ofList, List.utf8Encode, List.data_toByteArray,
    String.toList_ofList]
  have encoded (character : Char) (small : character.toNat < 128) :
      String.utf8EncodeChar character = [character.toUInt8] :=
    String.utf8EncodeChar_eq_singleton (utf8Size_of_ascii small)
  rw [List.toList_toArray, List.flatMap_congr fun character member =>
    encoded character (ascii character member)]
  exact List.map_eq_flatMap.symm

namespace LineIndex

theorem noteBytes_eq (index : LineIndex) (offset : Nat) {characters : List Char}
    (ascii : ∀ character ∈ characters, character.toNat < 128) :
    index.noteBytes offset (characters.map Char.toUInt8) =
      { index with
        lineStarts := index.lineStarts ++ startsFrom Utf16.width (index.units + offset) characters
        byteStarts :=
          index.byteStarts ++ startsFrom Char.utf8Size (index.bytes + offset) characters } := by
  induction characters generalizing index offset with
  | nil => simp [noteBytes, startsFrom]
  | cons character rest ih =>
      have small := ascii character List.mem_cons_self
      have isNewline : character.toUInt8 = 10 ↔ character = '\n' := by
        rw [← UInt8.toNat_inj, ← Char.toNat_inj]
        change character.toNat % 256 = 10 ↔ character.toNat = 10
        omega
      rw [List.map_cons, noteBytes, ih _ _ fun other member =>
        ascii other (List.mem_cons_of_mem _ member), startsFrom, startsFrom,
        Utf16.width_of_ascii small, utf8Size_of_ascii small]
      by_cases newline : character = '\n'
      · simp only [if_pos newline, if_pos (isNewline.mpr newline)]
        simp [Nat.add_assoc]
      · simp only [if_neg newline, if_neg (mt isNewline.mp newline), Nat.add_assoc]

theorem noteCharacters_eq (index : LineIndex) (offset : Nat) (characters : List Char) :
    index.noteCharacters offset characters =
      { index with
        units := index.units + Utf16.length characters
        lineStarts := index.lineStarts ++ startsFrom Utf16.width index.units characters
        byteStarts :=
          index.byteStarts ++ startsFrom Char.utf8Size (index.bytes + offset) characters } := by
  induction characters generalizing index offset with
  | nil => simp [noteCharacters, startsFrom]
  | cons character rest ih =>
      rw [noteCharacters, ih, startsFrom, startsFrom, Utf16.length_cons]
      by_cases newline : character = '\n'
      · have oneByte : '\n'.utf8Size = 1 := rfl
        simp [newline, oneByte, Nat.add_assoc]
      · simp [newline, Nat.add_assoc]

theorem append_eq (index : LineIndex) (text : String) :
    index.append text =
      { lineStarts := index.lineStarts ++ startsFrom Utf16.width index.units text.toList
        byteStarts := index.byteStarts ++ startsFrom Char.utf8Size index.bytes text.toList
        units := index.units + utf16Length text
        bytes := index.bytes + text.utf8ByteSize
        ascii := index.ascii &&
          text.toList.all fun character => decide (character.toNat < 128) } := by
  rw [append]
  cases ascii : text.toList.all fun character => decide (character.toNat < 128) with
  | true =>
      have small : ∀ character ∈ text.toList, character.toNat < 128 := by simpa using ascii
      rw [if_pos rfl, bytes_of_ascii small, noteBytes_eq index 0 small, Bool.and_true]
      simp [utf8ByteSize_eq, Utf16.byteLength_of_ascii small, utf16Length]
  | false =>
      rw [if_neg Bool.false_ne_true, noteCharacters_eq, Bool.and_false]
      rfl

theorem append_append (index : LineIndex) (front back : String) :
    (index.append front).append back = index.append (front ++ back) := by
  simp [append_eq, startsFrom_append, measured_width, measured_utf8Size, utf16Length,
    utf8ByteSize_eq, Utf16.byteLength_append, Nat.add_assoc, Bool.and_assoc, ← Array.toList_inj]

@[simp]
theorem append_empty (index : LineIndex) : index.append "" = index := by
  simp [append_eq, startsFrom, utf16Length]

end LineIndex

namespace IndexedText

theorem ofString_text (text : String) : (ofString text).text = text := by
  change "" ++ text = text
  exact String.empty_append

theorem append_ofString (front back : String) :
    (ofString front).append back = ofString (front ++ back) := by
  simp [ofString, append, empty, LineIndex.append_append]

@[simp]
theorem append_empty (whole : IndexedText) : whole.append "" = whole := by
  simp [append]

theorem lineStarts_ofString (text : String) :
    (ofString text).index.lineStarts.toList = 0 :: startsFrom Utf16.width 0 text.toList := by
  simp [ofString, append, empty, LineIndex.append_eq]

theorem byteStarts_ofString (text : String) :
    (ofString text).index.byteStarts.toList = 0 :: startsFrom Char.utf8Size 0 text.toList := by
  simp [ofString, append, empty, LineIndex.append_eq]

theorem length_ofString (text : String) : (ofString text).length = utf16Length text := by
  simp [ofString, append, empty, length, LineIndex.append_eq]

theorem bytes_ofString (text : String) :
    (ofString text).index.bytes = Utf16.byteLength text.toList := by
  simp [ofString, append, empty, LineIndex.append_eq, utf8ByteSize_eq]

theorem ascii_ofString (text : String) :
    (ofString text).index.ascii =
      text.toList.all fun character => decide (character.toNat < 128) := by
  simp [ofString, append, empty, LineIndex.append_eq]

private theorem getElem?_cons_length (base : Nat) (starts others : List Nat) :
    (base :: starts ++ others)[starts.length]? = some (starts.getLastD base) := by
  rw [List.getElem?_append_left (by simp)]
  induction starts generalizing base with
  | nil => rfl
  | cons start rest ih => rw [List.length_cons, List.getElem?_cons_succ, ih, List.getLastD_cons]

theorem startOf_eq (text : String) (front back : List Char) (whole : text.toList = front ++ back) :
    (ofString text).startOf (startsFrom Utf16.width 0 front).length =
      (startsFrom Utf16.width 0 front).getLastD 0 := by
  rw [startOf, ← Array.getElem?_toList, lineStarts_ofString, whole, startsFrom_append,
    ← List.cons_append, getElem?_cons_length, Option.getD_some]

/-! ### Offsets -/

theorem endPosition_ofString (text : String) :
    (ofString text).endPosition = Position.first.behind text.toList := by
  have count : (ofString text).lineCount =
      (startsFrom Utf16.width 0 text.toList).length + 1 := by
    rw [lineCount, ← Array.length_toList, lineStarts_ofString, List.length_cons]
  have lines := length_startsFrom Utf16.width 0 Position.first text.toList
  have columns := getLastD_startsFrom_width 0 0 Position.first text.toList rfl
  have lastStart := startOf_eq text text.toList [] (List.append_nil _).symm
  rw [Position.first_line] at lines
  apply Position.ext
  · rw [endPosition, count, ← lines, Nat.add_comm]
  · rw [endPosition, count, Nat.add_sub_cancel, lastStart, length_ofString, utf16Length]
    simp only
    omega

theorem lineCount_le (text : String) : (ofString text).lineCount ≤ utf16Length text + 1 := by
  have lines := Position.line_behind_le Position.first text.toList
  rwa [← endPosition_ofString, Position.first_line, Nat.add_comm] at lines

theorem checkOffset_eq_ok_iff {text : String} {offset : Nat} :
    (ofString text).checkOffset offset = .ok () ↔ offset ≤ utf16Length text := by
  rw [checkOffset, length_ofString]
  split
  · exact iff_of_false (fun impossible => by cases impossible) (by omega)
  · exact iff_of_true rfl (by omega)

theorem lineIndexAt_eq (text : String) (offset : Nat) :
    (ofString text).lineIndexAt offset =
      (startsFrom Utf16.width 0 (Utf16.take offset text.toList)).length := by
  have fits := Utf16.length_take_le offset text.toList
  have parts := (Utf16.take_append_drop offset text.toList).symm
  have starts : (ofString text).index.lineStarts.toList =
      (0 :: startsFrom Utf16.width 0 (Utf16.take offset text.toList)) ++
        startsFrom Utf16.width (Utf16.length (Utf16.take offset text.toList))
          (Utf16.drop offset text.toList) := by
    rw [lineStarts_ofString, parts, startsFrom_append, measured_width, Nat.zero_add, ← parts,
      List.cons_append]
  rw [lineIndexAt, partitionPoint_append _ starts]
  · rw [List.length_cons, Nat.add_sub_cancel]
  · intro start member
    rcases List.mem_cons.mp member with same | later
    · simp [same]
    · have bounds := mem_startsFrom Utf16.width (Utf16.width_pos _) later
      rw [measured_width] at bounds
      exact decide_eq_true (by omega)
  · intro start member
    apply decide_eq_false
    cases cut : Utf16.drop offset text.toList with
    | nil =>
        rw [cut] at member
        cases member
    | cons character rest =>
        have tooWide := Utf16.full_of_take cut
        rw [cut, startsFrom] at member
        split at member
        · rcases List.mem_cons.mp member with same | later
          · omega
          · have bounds := mem_startsFrom Utf16.width (Utf16.width_pos _) later
            omega
        · have bounds := mem_startsFrom Utf16.width (Utf16.width_pos _) member
          omega

theorem positionAt_eq {text : String} {offset : Nat} (within : offset ≤ utf16Length text) :
    (ofString text).positionAt offset = .ok (Position.ofOffset text.toList offset) := by
  have checked := checkOffset_eq_ok_iff.mpr within
  have parts := (Utf16.take_append_drop offset text.toList).symm
  have lines := length_startsFrom Utf16.width 0 Position.first (Utf16.take offset text.toList)
  have columns :=
    getLastD_startsFrom_width 0 0 Position.first (Utf16.take offset text.toList) rfl
  have fits := Utf16.length_take_le offset text.toList
  rw [Position.first_line] at lines
  rw [positionAt, checked]
  change Except.ok _ = _
  rw [lineIndexAt_eq, startOf_eq text _ _ parts]
  congr 1
  apply Position.ext
  · rw [Position.ofOffset_line, ← lines, Nat.add_comm]
  · simp only [Position.ofOffset]
    omega

theorem bytesBetween_eq {text : String} {front middle back : List Char}
    (whole : text.toList = front ++ middle ++ back) :
    (ofString text).bytesBetween (Utf16.byteLength front)
        (Utf16.byteLength (front ++ middle)) = String.ofList middle := by
  have same : text = String.ofList (front ++ middle ++ back) := by
    rw [← whole, String.ofList_toList]
  rw [bytesBetween, ofString_text, Utf16.byteLength_append, Utf16.byteLength_eq_utf8Len,
    Utf16.byteLength_eq_utf8Len, same]
  exact String.extract_of_valid front middle back

private theorem length_take_of_ascii {characters : List Char} {offset : Nat}
    (ascii : ∀ character ∈ characters, character.toNat < 128)
    (within : offset ≤ Utf16.length characters) :
    Utf16.length (Utf16.take offset characters) = offset := by
  have fits := Utf16.length_take_le offset characters
  have parts := Utf16.take_append_drop offset characters
  cases cut : Utf16.drop offset characters with
  | nil =>
      rw [cut, List.append_nil] at parts
      rw [parts] at fits ⊢
      omega
  | cons character rest =>
      have tooWide := Utf16.full_of_take cut
      have member : character ∈ characters := by
        rw [← parts, cut]
        exact List.mem_append_right _ List.mem_cons_self
      have oneUnit := Utf16.width_of_ascii (ascii character member)
      omega

/-- The line of an offset starts behind the last newline in front of it, in units and in bytes. -/
theorem exists_lead (text : String) (offset : Nat) :
    ∃ lead line, Utf16.take offset text.toList = lead ++ line ∧
      (ofString text).startOf ((ofString text).lineIndexAt offset) = Utf16.length lead ∧
        (ofString text).byteStartOf ((ofString text).lineIndexAt offset) =
          Utf16.byteLength lead := by
  have parts := (Utf16.take_append_drop offset text.toList).symm
  obtain ⟨lead, line, front, _noNewline, lastStart⟩ :=
    exists_lastLine (Utf16.take offset text.toList)
  refine ⟨lead, line, front, ?_, ?_⟩
  · rw [lineIndexAt_eq, startOf_eq text _ _ parts, lastStart, measured_width, Nat.zero_add]
  · have entries := byteStarts_ofString text
    rw [parts, startsFrom_append, ← List.cons_append] at entries
    rw [byteStartOf, lineIndexAt_eq, length_startsFrom_eq Utf16.width Char.utf8Size 0 0,
      ← Array.getElem?_toList, entries, getElem?_cons_length, Option.getD_some, lastStart,
      measured_utf8Size, Nat.zero_add]

/-- Off an ASCII text only the line of the offset is looked at, which gives the same bytes. -/
private theorem byteOffset_line (text : String) (offset : Nat) :
    (ofString text).byteStartOf ((ofString text).lineIndexAt offset) +
        Utf16.byteLength (Utf16.take
          (offset - (ofString text).startOf ((ofString text).lineIndexAt offset))
          ((ofString text).bytesBetween
            ((ofString text).byteStartOf ((ofString text).lineIndexAt offset))
            ((ofString text).byteStartOf ((ofString text).lineIndexAt offset + 1))).toList) =
      Utf16.byteLength (Utf16.take offset text.toList) := by
  have fits := Utf16.length_take_le offset text.toList
  have parts := (Utf16.take_append_drop offset text.toList).symm
  obtain ⟨lead, line, front, start, byteStart⟩ := exists_lead text offset
  obtain ⟨rest, others, back, emptyRest, nextStart⟩ :=
    exists_firstLine (Utf16.drop offset text.toList)
  have whole : text.toList = lead ++ (line ++ rest) ++ others := by
    rw [parts, front, back]
    simp
  have byteStop : (ofString text).byteStartOf ((ofString text).lineIndexAt offset + 1) =
      Utf16.byteLength (lead ++ (line ++ rest)) := by
    have entries := byteStarts_ofString text
    rw [parts, startsFrom_append, ← List.cons_append] at entries
    have bytes : (ofString text).index.bytes =
        0 + measured Char.utf8Size (Utf16.take offset text.toList) +
          measured Char.utf8Size (Utf16.drop offset text.toList) := by
      rw [bytes_ofString, Nat.zero_add, ← measured_append, ← parts, measured_utf8Size]
    rw [byteStartOf, lineIndexAt_eq, length_startsFrom_eq Utf16.width Char.utf8Size 0 0,
      ← Array.getElem?_toList, entries, List.getElem?_append_right (by simp), List.length_cons,
      Nat.sub_self, bytes, nextStart, Nat.zero_add, ← measured_append, front, measured_utf8Size,
      List.append_assoc]
  have taken : Utf16.take (offset - Utf16.length lead) (line ++ rest) = line := by
    rw [front, Utf16.length_append] at fits
    apply Utf16.take_append_of_full (by omega)
    intro character later same
    cases cut : Utf16.drop offset text.toList with
    | nil =>
        rw [cut] at back
        rw [List.append_eq_nil_iff.mp back.symm |>.1] at same
        cases same
    | cons next after =>
        have tooWide := Utf16.full_of_take cut
        rw [cut, same, List.cons_append] at back
        rw [(List.cons.inj back).1, front, Utf16.length_append] at tooWide
        omega
  rw [start, byteStart, byteStop, bytesBetween_eq whole, String.toList_ofList, taken, front,
    Utf16.byteLength_append]

theorem byteOffset_eq {text : String} {offset : Nat} (within : offset ≤ utf16Length text) :
    (ofString text).byteOffset offset =
      .ok (Utf16.byteLength (Utf16.take offset text.toList)) := by
  have checked := checkOffset_eq_ok_iff.mpr within
  rw [byteOffset, checked]
  change (if _ then _ else _) = _
  cases ascii : (ofString text).index.ascii with
  | true =>
      rw [ascii_ofString] at ascii
      have small : ∀ character ∈ text.toList, character.toNat < 128 := by
        simpa using ascii
      have smallFront : ∀ character ∈ Utf16.take offset text.toList, character.toNat < 128 := by
        intro character member
        apply small
        rw [← Utf16.take_append_drop offset text.toList]
        exact List.mem_append_left _ member
      rw [if_pos rfl, Utf16.byteLength_of_ascii smallFront, length_take_of_ascii small within]
      rfl
  | false =>
      rw [if_neg Bool.false_ne_true]
      exact congrArg Except.ok (byteOffset_line text offset)

theorem byteOffset_outside {text : String} {offset : Nat} (outside : utf16Length text < offset) :
    (ofString text).byteOffset offset =
      .error (.outOfRange .offset offset (utf16Length text)) := by
  rw [byteOffset, checkOffset, length_ofString, if_pos outside]
  rfl

theorem byteOffset_eq_ok_iff {text : String} {offset byte : Nat} :
    (ofString text).byteOffset offset = .ok byte ↔
      offset ≤ utf16Length text ∧ byte = Utf16.byteLength (Utf16.take offset text.toList) := by
  by_cases within : offset ≤ utf16Length text
  · rw [byteOffset_eq within, Except.ok.injEq, and_iff_right within, eq_comm]
  · rw [byteOffset_outside (Nat.lt_of_not_le within)]
    exact iff_of_false (fun impossible => by cases impossible) fun both => within both.1

theorem slice_eq_ok_iff {text piece : String} {start stop : Nat} :
    (ofString text).slice start stop = .ok piece ↔
      (start ≤ stop ∧ stop ≤ utf16Length text) ∧
        piece = String.ofList (Utf16.between start stop text.toList) := by
  by_cases inOrder : start ≤ stop
  · by_cases within : stop ≤ utf16Length text
    · have startWithin : start ≤ utf16Length text := Nat.le_trans inOrder within
      have parts := Utf16.take_append_between inOrder text.toList
      have whole : text.toList = Utf16.take start text.toList ++
          Utf16.between start stop text.toList ++ Utf16.drop stop text.toList := by
        rw [parts, Utf16.take_append_drop]
      have middle := bytesBetween_eq whole
      rw [parts] at middle
      have sliced : (ofString text).slice start stop =
          .ok (String.ofList (Utf16.between start stop text.toList)) := by
        rw [slice, if_neg (by omega), byteOffset_eq startWithin, byteOffset_eq within, ← middle]
        rfl
      rw [sliced, Except.ok.injEq, and_iff_right ⟨inOrder, within⟩, eq_comm]
    · constructor
      · intro sliced
        rw [slice, if_neg (by omega), byteOffset_outside (Nat.lt_of_not_le within)] at sliced
        cases found : (ofString text).byteOffset start with
        | error cause => rw [found] at sliced; cases sliced
        | ok byte => rw [found] at sliced; cases sliced
      · exact fun bounds => absurd bounds.1.2 within
  · constructor
    · intro sliced
      rw [slice, if_pos (by omega)] at sliced
      cases sliced
    · exact fun bounds => absurd bounds.1.1 inOrder

end IndexedText

end SourceWeave
