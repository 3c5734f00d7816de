import SourceWeave.Proofs.Lookup
import SourceWeave.Proofs.Offsets

/-!
Reading under guards. A difference is taken only if it is not negative, an entry only if it is
there, a stretch of an array or of a text only between two of its places in order, and a number
goes into a word only if it fits. Of a text shorter than the largest word all guards hold: places,
offsets and slices are the same with guards and without, and fail with the same errors.
-/

set_option autoImplicit false

namespace SourceWeave

/-- A computation with guards. Where a guard fails nothing comes out, not even an error. -/
abbrev Guarded (α : Type) := ExceptT MappingError Option α

namespace Guarded

section Guards

variable {ε α β : Type}

/-- What comes out if every guard holds. -/
def passed (outcome : Except ε α) : ExceptT ε Option α :=
  ExceptT.mk (some outcome)

def require (condition : Prop) [Decidable condition] : ExceptT ε Option Unit :=
  ExceptT.mk (if condition then some (.ok ()) else none)

def minus (whole part : Nat) : Guarded Nat := do
  require (part ≤ whole)
  return whole - part

def word (number : Nat) : Guarded Nat := do
  require (number < 2 ^ 32)
  return number

def entry (items : Array α) (index : Nat) : Guarded α :=
  ExceptT.mk (items[index]?.map .ok)

def stretch (items : Array α) (start stop : Nat) : Guarded (Array α) := do
  require (start ≤ stop ∧ stop ≤ items.size)
  return items.extract start stop

def textBetween (text : String) (start stop : Nat) : Guarded String := do
  require (start ≤ stop ∧ String.Pos.Raw.IsValid text ⟨start⟩ ∧ String.Pos.Raw.IsValid text ⟨stop⟩)
  return String.Pos.Raw.extract text ⟨start⟩ ⟨stop⟩

/-- A computation passes its guards if the first step does, and the others behind its result. -/
theorem passed_bind (action : Except ε α) {next : α → ExceptT ε Option β}
    {plain : α → Except ε β}
    (further : ∀ result, action = .ok result → next result = passed (plain result)) :
    passed action >>= next = passed (action >>= plain) := by
  cases action with
  | error cause => rfl
  | ok result => exact further result rfl

theorem passed_eq_bind (action : Except ε α) (next : α → Except ε β) :
    passed (action >>= next) = passed action >>= fun result => passed (next result) :=
  (passed_bind action fun _ _ => rfl).symm

theorem passed_pure (result : α) : (passed (pure result) : ExceptT ε Option α) = pure result :=
  rfl

theorem passed_ok (result : α) : (passed (.ok result) : ExceptT ε Option α) = pure result :=
  rfl

theorem require_of {condition : Prop} [Decidable condition] (holds : condition) :
    (require condition : ExceptT ε Option Unit) = pure () := by
  rw [require, if_pos holds]
  rfl

theorem minus_of_le {whole part : Nat} (inOrder : part ≤ whole) :
    minus whole part = pure (whole - part) := by
  rw [minus, require_of inOrder, pure_bind]

theorem word_of_lt {number : Nat} (fits : number < 2 ^ 32) : word number = pure number := by
  rw [word, require_of fits, pure_bind]

theorem entry_of_getElem? {items : Array α} {index : Nat} {item : α}
    (isItem : items[index]? = some item) : entry items index = pure item := by
  rw [entry, isItem]
  rfl

theorem stretch_of_le {items : Array α} {start stop : Nat} (inOrder : start ≤ stop)
    (within : stop ≤ items.size) : stretch items start stop = pure (items.extract start stop) := by
  rw [stretch, require_of ⟨inOrder, within⟩, pure_bind]

theorem isValid_byteLength {text : String} {front back : List Char}
    (whole : text.toList = front ++ back) :
    String.Pos.Raw.IsValid text ⟨Utf16.byteLength front⟩ := by
  apply String.Pos.Raw.isValid_iff_exists_append.mpr
  refine ⟨String.ofList front, String.ofList back, ?_, ?_⟩
  · rw [← String.ofList_append, ← whole, String.ofList_toList]
  · apply String.Pos.Raw.ext
    rw [String.byteIdx_rawEndPos, utf8ByteSize_eq, String.toList_ofList]

theorem textBetween_of_append {text : String} {front middle back : List Char}
    (whole : text.toList = front ++ middle ++ back) :
    textBetween text (Utf16.byteLength front) (Utf16.byteLength (front ++ middle)) =
      pure (String.ofList middle) := by
  have inOrder : Utf16.byteLength front ≤ Utf16.byteLength (front ++ middle) := by
    rw [Utf16.byteLength_append]
    exact Nat.le_add_right _ _
  have start : String.Pos.Raw.IsValid text ⟨Utf16.byteLength front⟩ :=
    isValid_byteLength (whole.trans (List.append_assoc _ _ _))
  have sliced := IndexedText.bytesBetween_eq whole
  rw [IndexedText.bytesBetween, IndexedText.ofString_text] at sliced
  rw [textBetween, require_of ⟨inOrder, start, isValid_byteLength whole⟩, pure_bind, sliced]

example : (textBetween "a😀" 0 3).run = none := by decide +kernel

end Guards

/-! ### The index of a text -/

/-- Where an offset stands among starts in order, or in front of which of them it would stand. -/
inductive Spot
  | found (index : Nat)
  | missing (index : Nat)
deriving DecidableEq, Repr

def spotOf (starts : Array Nat) (offset : Nat) : Spot :=
  let index := partitionPoint (fun start => decide (start < offset)) starts
  if starts[index]? = some offset then .found index else .missing index

def Spot.line : Spot → Guarded Nat
  | .found index => return index
  | .missing index => minus index 1

def endPosition (whole : IndexedText) : Guarded Position := do
  let last ← minus whole.lineCount 1
  let start ← entry whole.index.lineStarts last
  let column ← minus whole.length start
  return ⟨← word whole.lineCount, ← word column⟩

def positionAt (whole : IndexedText) (offset : Nat) : Guarded Position := do
  passed (whole.checkOffset offset)
  let line ← (spotOf whole.index.lineStarts offset).line
  let start ← entry whole.index.lineStarts line
  let column ← minus offset start
  return ⟨← word (line + 1), ← word column⟩

/-- The bytes in front of an offset. Of a text that is not ASCII what stands behind the start of
the offset's line is gone through. -/
def byteOffset (whole : IndexedText) (offset : Nat) : Guarded Nat := do
  passed (whole.checkOffset offset)
  if whole.index.ascii then
    return offset
  else
    match spotOf whole.index.lineStarts offset with
    | .found index => entry whole.index.byteStarts index
    | .missing index =>
        let line ← minus index 1
        let byteStart ← entry whole.index.byteStarts line
        let start ← entry whole.index.lineStarts line
        let skipped ← minus offset start
        let rest ← textBetween whole.text byteStart whole.text.utf8ByteSize
        return byteStart + Utf16.byteLength (Utf16.take skipped rest.toList)

def slice (whole : IndexedText) (start stop : Nat) : Guarded String := do
  if stop < start then
    passed (.error (.outOfRange .offset start stop))
  else
    let first ← byteOffset whole start
    let last ← byteOffset whole stop
    textBetween whole.text first last

section Index

open IndexedText

variable {text : String}

theorem entry_lineStarts {index : Nat} (inText : index < (ofString text).lineCount) :
    entry (ofString text).index.lineStarts index = pure ((ofString text).startOf index) := by
  apply entry_of_getElem?
  rw [startOf, Array.getElem?_eq_getElem inText, Option.getD_some]

theorem entry_byteStarts {index : Nat} (inText : index < (ofString text).lineCount) :
    entry (ofString text).index.byteStarts index = pure ((ofString text).byteStartOf index) := by
  have sameSize : (ofString text).index.byteStarts.size = (ofString text).lineCount := by
    rw [lineCount, ← Array.length_toList, ← Array.length_toList, byteStarts_ofString,
      lineStarts_ofString, List.length_cons, List.length_cons,
      length_startsFrom_eq Char.utf8Size Utf16.width 0 0]
  apply entry_of_getElem?
  rw [byteStartOf, Array.getElem?_eq_getElem (Nat.lt_of_lt_of_eq inText sameSize.symm),
    Option.getD_some]

theorem endPosition_ofString (short : utf16Length text < 2 ^ 32 - 1) :
    endPosition (ofString text) = pure (ofString text).endPosition := by
  have lines := lineCount_le text
  have last := lineIndexAt_lt_lineCount text (utf16Length text)
  have some : 1 ≤ (ofString text).lineCount := by omega
  have inText : (ofString text).lineCount - 1 < (ofString text).lineCount := by omega
  have start : (ofString text).startOf ((ofString text).lineCount - 1) ≤ utf16Length text := by
    rw [startOf, Array.getElem?_eq_getElem inText, Option.getD_some]
    exact le_length_of_mem_lineStarts (Array.getElem_mem_toList inText)
  rw [endPosition, minus_of_le some, pure_bind, entry_lineStarts inText, pure_bind,
    length_ofString, minus_of_le start, pure_bind, word_of_lt (by omega), pure_bind,
    word_of_lt (by omega), pure_bind, IndexedText.endPosition, length_ofString]

/-- An offset is found if its line starts there; otherwise it would stand behind the start. -/
theorem spotOf_eq (text : String) (offset : Nat) :
    (spotOf (ofString text).index.lineStarts offset =
        .found ((ofString text).lineIndexAt offset) ∧
      (ofString text).startOf ((ofString text).lineIndexAt offset) = offset) ∨
      spotOf (ofString text).index.lineStarts offset =
        .missing ((ofString text).lineIndexAt offset + 1) := by
  have failsOn : FailsOn (fun start : Nat => decide (start < offset))
      (ofString text).index.lineStarts.toList := by
    refine List.Pairwise.imp ?_ (lineStarts_pairwise text)
    intro earlier later before passed
    exact decide_eq_true (Nat.lt_trans before (of_decide_eq_true passed))
  have firstLine : (ofString text).index.lineStarts.toList[0]? = some 0 := by
    rw [lineStarts_ofString, List.getElem?_cons_zero]
  rw [spotOf]
  generalize counted : partitionPoint (fun start => decide (start < offset))
    (ofString text).index.lineStarts = count
  by_cases here : (ofString text).index.lineStarts[count]? = some offset
  · left
    have isStart := here
    rw [← Array.getElem?_toList] at isStart
    have sameLine : (ofString text).lineIndexAt offset = count :=
      (lineIndexAt_eq_iff isStart).mpr
        ⟨Nat.le_refl _, fun next isNext => start_lt_next isStart isNext⟩
    rw [if_pos here, sameLine]
    exact ⟨rfl, startOf_of_getElem? isStart⟩
  · right
    rw [if_neg here]
    rw [← Array.getElem?_toList] at here
    have before {index start : Nat}
        (isStart : (ofString text).index.lineStarts.toList[index]? = some start) :
        start < offset ↔ index < count := by
      rw [← counted, ← failsOn.passes_iff isStart, decide_eq_true_iff]
    -- The first line starts at zero, which is found if it is not in front of the offset.
    have notFirst : count ≠ 0 := by
      intro isFirst
      have notBefore := (before firstLine).not.mpr (by omega)
      rw [isFirst, firstLine] at here
      exact here (congrArg some (by omega))
    obtain ⟨line, isLine⟩ := Nat.exists_eq_succ_of_ne_zero notFirst
    have inText : line < (ofString text).index.lineStarts.toList.length := by
      have within := partitionPoint_le_size (fun start => decide (start < offset))
        (ofString text).index.lineStarts
      rw [Array.length_toList]
      omega
    have isStart := List.getElem?_eq_getElem inText
    have reached := (before isStart).mpr (by omega)
    have sameLine : (ofString text).lineIndexAt offset = line := by
      apply (lineIndexAt_eq_iff isStart).mpr
      refine ⟨Nat.le_of_lt reached, ?_⟩
      intro next isNext
      have notBefore := (before isNext).not.mpr (by omega)
      rw [isLine, isNext] at here
      have different : next ≠ offset := fun same => here (congrArg some same)
      omega
    rw [isLine, sameLine]

theorem line_spotOf (text : String) (offset : Nat) :
    (spotOf (ofString text).index.lineStarts offset).line =
      pure ((ofString text).lineIndexAt offset) := by
  rcases spotOf_eq text offset with ⟨found, _⟩ | missing
  · rw [found, Spot.line]
  · rw [missing, Spot.line, minus_of_le (Nat.le_add_left 1 _), Nat.add_sub_cancel]

theorem positionAt_ofString (short : utf16Length text < 2 ^ 32 - 1) (offset : Nat) :
    positionAt (ofString text) offset = passed ((ofString text).positionAt offset) := by
  apply passed_bind
  intro _ checked
  have within := checkOffset_eq_ok_iff.mp checked
  have inText := lineIndexAt_lt_lineCount text offset
  have lines := lineCount_le text
  rw [line_spotOf, pure_bind, entry_lineStarts inText, pure_bind,
    minus_of_le (startOf_lineIndexAt_le text offset), pure_bind, word_of_lt (by omega), pure_bind,
    word_of_lt (by omega), pure_bind]
  rfl

theorem byteOffset_ofString (text : String) (offset : Nat) :
    byteOffset (ofString text) offset = passed ((ofString text).byteOffset offset) := by
  apply passed_bind
  intro _ checked
  have within := checkOffset_eq_ok_iff.mp checked
  have same := byteOffset_eq within
  rw [IndexedText.byteOffset, checked, ok_bind] at same
  rw [same, passed_ok]
  cases ascii : (ofString text).index.ascii with
  | true =>
      rw [ascii, if_pos rfl] at same
      rw [if_pos rfl, ← Except.ok.inj same]
  | false =>
      rw [if_neg Bool.false_ne_true]
      have inText := lineIndexAt_lt_lineCount text offset
      have start := startOf_lineIndexAt_le text offset
      obtain ⟨lead, line, front, leadUnits, leadBytes⟩ := exists_lead text offset
      rw [leadUnits] at start
      have whole : text.toList = lead ++ (line ++ Utf16.drop offset text.toList) := by
        rw [← List.append_assoc, ← front, Utf16.take_append_drop]
      have taken := Utf16.take_append_shift lead (line ++ Utf16.drop offset text.toList)
        (offset - Utf16.length lead)
      rw [← whole, Nat.add_sub_cancel' start] at taken
      rcases spotOf_eq text offset with ⟨found, atStart⟩ | missing
      · rw [leadUnits] at atStart
        rw [found]
        simp only
        rw [entry_byteStarts inText, leadBytes, taken, atStart, Nat.sub_self, Utf16.take_zero,
          List.append_nil]
      · have ended : text.toList = lead ++ (line ++ Utf16.drop offset text.toList) ++ [] := by
          rw [List.append_nil, ← whole]
        have rest := textBetween_of_append ended
        rw [← whole, ← utf8ByteSize_eq] at rest
        rw [missing]
        simp only
        rw [minus_of_le (Nat.le_add_left 1 _), pure_bind, Nat.add_sub_cancel,
          entry_byteStarts inText, pure_bind, entry_lineStarts inText, pure_bind, leadUnits,
          minus_of_le start, pure_bind, leadBytes, ofString_text, rest, pure_bind,
          String.toList_ofList, taken, Utf16.byteLength_append]

theorem slice_ofString (text : String) (start stop : Nat) :
    slice (ofString text) start stop = passed ((ofString text).slice start stop) := by
  rw [slice, IndexedText.slice]
  by_cases inOrder : start ≤ stop
  · rw [if_neg (Nat.not_lt.mpr inOrder), if_neg (Nat.not_lt.mpr inOrder), byteOffset_ofString]
    apply passed_bind
    intro first isFirst
    rw [byteOffset_ofString]
    apply passed_bind
    intro last isLast
    obtain ⟨startWithin, isStart⟩ := byteOffset_eq_ok_iff.mp isFirst
    obtain ⟨stopWithin, isStop⟩ := byteOffset_eq_ok_iff.mp isLast
    have parts := Utf16.take_append_between inOrder text.toList
    have whole : text.toList = Utf16.take start text.toList ++
        Utf16.between start stop text.toList ++ Utf16.drop stop text.toList := by
      rw [parts, Utf16.take_append_drop]
    have middle := textBetween_of_append whole
    have sliced := bytesBetween_eq whole
    rw [parts] at middle sliced
    rw [isStart, isStop, ofString_text, middle, sliced]
    rfl
  · rw [if_pos (Nat.lt_of_not_le inOrder), if_pos (Nat.lt_of_not_le inOrder)]

end Index

/-! ### The segments of a mapping -/

def lineSegments (mapping : Mapping) (line : Nat) : Guarded (Array Segment) :=
  stretch mapping.segments
    (partitionPoint (fun segment => decide (segment.position.line < line)) mapping.segments)
    (partitionPoint (fun segment => decide (segment.position.line ≤ line)) mapping.segments)

def covering (mapping : Mapping) (place : Position) : Guarded (Option Segment) := do
  let onLine ← lineSegments mapping place.line
  match partitionPoint (fun segment => decide (segment.position.column ≤ place.column)) onLine with
  | 0 => return none
  | count + 1 => return some (← entry onLine count)

theorem lineSegments_eq (mapping : Mapping) (line : Nat) :
    lineSegments mapping line = pure (mapping.lineSegments line) := by
  apply stretch_of_le
  · apply partitionPoint_le_partitionPoint (mapping.failsOn_line_lt line)
      (mapping.failsOn_line_le line)
    intro segment _ passed
    exact decide_eq_true (Nat.le_of_lt (of_decide_eq_true passed))
  · exact partitionPoint_le_size _ _

theorem covering_eq (mapping : Mapping) (place : Position) :
    covering mapping place = pure (mapping.covering place) := by
  rw [covering, lineSegments_eq, pure_bind, Mapping.covering]
  have within := partitionPoint_le_size
    (fun segment : Segment => decide (segment.position.column ≤ place.column))
    (mapping.lineSegments place.line)
  cases reached : partitionPoint
      (fun segment : Segment => decide (segment.position.column ≤ place.column))
      (mapping.lineSegments place.line) with
  | zero => rfl
  | succ count =>
      rw [reached] at within
      have isEntry := Array.getElem?_eq_getElem within
      simp only
      rw [entry_of_getElem? isEntry, pure_bind, isEntry]

end Guarded

end SourceWeave
