import Mathlib.Data.List.SplitBy
import SourceWeave.Proofs.Language

/-!
Texts that are read and written again. The differences between sums are the numbers that were
summed, so that the numbers of a text are written as they stood, each in the fewest digits, a
zero without a sign, without empty pieces and without empty lines at the end. The text that comes
out is never longer than the one that was read. It is the same text exactly if there was nothing
to leave out, and this can be seen from the digits and the separators alone.
-/

set_option autoImplicit false

namespace SourceWeave

/-- `written` takes the place of `text`. It is no longer, and nothing changes exactly if the text
is in order already. -/
structure Shortens (written text : List Char) (inOrder : Prop) : Prop where
  length_le : written.length ≤ text.length
  eq_iff : written = text ↔ inOrder

namespace Shortens

variable {written text back rest : List Char} {inOrder others : Prop}

theorem congr (shortens : Shortens written text inOrder) (same : inOrder ↔ others) :
    Shortens written text others :=
  ⟨shortens.length_le, shortens.eq_iff.trans same⟩

theorem of_lt (shorter : written.length < text.length) (notInOrder : ¬ inOrder) :
    Shortens written text inOrder where
  length_le := Nat.le_of_lt shorter
  eq_iff := by
    constructor
    · intro same
      rw [same] at shorter
      exact absurd shorter (Nat.lt_irrefl _)
    · intro isInOrder
      exact absurd isInOrder notInOrder

theorem append (front : Shortens written text inOrder) (behind : Shortens back rest others) :
    Shortens (written ++ back) (text ++ rest) (inOrder ∧ others) where
  length_le := by
    rw [List.length_append, List.length_append]
    exact Nat.add_le_add front.length_le behind.length_le
  eq_iff := by
    rw [← front.eq_iff, ← behind.eq_iff]
    constructor
    · intro same
      have together := congrArg List.length same
      rw [List.length_append, List.length_append] at together
      have frontLength := front.length_le
      have behindLength := behind.length_le
      exact List.append_inj same (by omega)
    · intro same
      rw [same.1, same.2]

theorem cons_iff (character : Char) :
    Shortens (character :: written) (character :: text) inOrder ↔
      Shortens written text inOrder := by
  constructor
  · intro shortens
    exact ⟨Nat.le_of_succ_le_succ shortens.length_le,
      (List.cons_inj_right character).symm.trans shortens.eq_iff⟩
  · intro shortens
    exact ⟨Nat.succ_le_succ shortens.length_le,
      (List.cons_inj_right character).trans shortens.eq_iff⟩

end Shortens

namespace Vlq

def continues (character : Char) : Bool :=
  (digitValue? character).any (32 ≤ ·)

def groups (piece : List Char) : List (List Char) :=
  piece.splitBy fun character _ => continues character

/-- The one spelling of a number: with no digit of zero behind one that continues, and not
of the word that is a zero with a sign. -/
structure Canonical (group : List Char) : Prop where
  minimal : 1 < group.length → group.getLast? ≠ some 'A'
  notNegativeZero : ¬ Run group 1

theorem digit_of_digitValue?_eq {character : Char} {value : Nat}
    (isDigit : digitValue? character = some value) : digit value = character ∧ value < 64 := by
  have table : ∀ code : Fin 128, ∀ value ∈ digitValue? (Char.ofNat code.val),
      digit value = Char.ofNat code.val ∧ value < 64 := by
    decide +kernel
  have ascii : character.toNat < 128 := by
    simp only [digitValue?, Char.reduceToNat] at isDigit
    split at isDigit
    · omega
    · split at isDigit
      · omega
      · split at isDigit
        · omega
        · split at isDigit
          · rename_i isPlus
            rw [isPlus]
            decide
          · split at isDigit
            · rename_i isSlash
              rw [isSlash]
              decide
            · cases isDigit
  have told := table ⟨character.toNat, ascii⟩ value
  rw [Char.ofNat_toNat] at told
  exact told isDigit

theorem continues_of_digitValue? {character : Char} {value : Nat}
    (isDigit : digitValue? character = some value) :
    continues character = decide (32 ≤ value) := by
  rw [continues, isDigit, Option.any_some]

namespace Run

variable {group rest : List Char} {word : Nat}

theorem unique {other : Nat} (run : Run group word) (otherRun : Run group other) :
    word = other := by
  induction run generalizing other with
  | @last character value isDigit ends =>
      cases otherRun with
      | last isOther => exact Option.some.inj (isDigit.symm.trans isOther)
      | further _ _ run => cases run
  | @further character value rest word isDigit goesOn run ih =>
      cases otherRun with
      | last => cases run
      | further isOther _ otherRun =>
          rw [Option.some.inj (isDigit.symm.trans isOther), ih otherRun]

theorem isChain (run : Run group word) :
    group.IsChain fun character _ => continues character = true := by
  induction run with
  | last => exact List.isChain_singleton _
  | further isDigit goesOn _ ih =>
      refine List.isChain_cons.mpr ⟨fun _ _ => ?_, ih⟩
      rw [continues_of_digitValue? isDigit]
      exact decide_eq_true goesOn

theorem continues_getLast (run : Run group word) :
    ∀ character ∈ group.getLast?, continues character = false := by
  induction run with
  | last isDigit ends =>
      intro character isLast
      rw [List.getLast?_singleton, Option.mem_some] at isLast
      rw [← isLast, continues_of_digitValue? isDigit]
      exact decide_eq_false (Nat.not_le.mpr ends)
  | @further first _ rest _ _ _ run ih =>
      cases run <;> exact ih

theorem groups_append (run : Run group word) : groups (group ++ rest) = group :: groups rest := by
  have some : group ≠ [] := List.ne_nil_of_length_pos run.length_pos
  rw [groups, List.splitBy_append, List.splitBy_of_isChain some run.isChain, groups]
  · rfl
  · intro character isLast _ _
    exact run.continues_getLast character isLast

theorem getLast?_eq_of_zero (run : Run group word) (isZero : word = 0) :
    group.getLast? = some 'A' := by
  induction run with
  | last isDigit =>
      rw [isZero] at isDigit
      rw [← (digit_of_digitValue?_eq isDigit).1]
      rfl
  | further _ _ run ih =>
      have above := ih (by omega)
      cases run <;> exact above

theorem digits_eq (run : Run group word)
    (minimal : 1 < group.length → group.getLast? ≠ some 'A') : digits word = group := by
  induction run with
  | last isDigit ends =>
      rw [digits, if_pos ends, (digit_of_digitValue?_eq isDigit).1]
  | @further character value rest word isDigit goesOn run ih =>
      obtain ⟨isCharacter, small⟩ := digit_of_digitValue?_eq isDigit
      have lastOfRest : rest.getLast? ≠ some 'A' := by
        have some := run.length_pos
        have isLast := minimal (by rw [List.length_cons]; omega)
        cases run <;> exact isLast
      have nonzero : word ≠ 0 := fun isZero => lastOfRest (run.getLast?_eq_of_zero isZero)
      have low : (value % 32 + 32 * word) % 32 = value % 32 := by omega
      have high : (value % 32 + 32 * word) / 32 = word := by omega
      have restored : 32 + value % 32 = value := by omega
      rw [digits, if_neg (by omega), low, high, restored, isCharacter, ih fun _ => lastOfRest]

theorem length_digits_le (run : Run group word) : (digits word).length ≤ group.length := by
  induction run with
  | last _ ends =>
      rw [digits, if_pos ends]
      exact Nat.le_refl 1
  | @further character value rest word isDigit goesOn run ih =>
      rw [digits]
      split
      · exact Nat.succ_le_succ (Nat.zero_le _)
      · have high : (value % 32 + 32 * word) / 32 = word := by omega
        rw [high]
        exact Nat.succ_le_succ ih

end Run

theorem getLast?_digits_ne {word : Nat} (nonzero : word ≠ 0) :
    (digits word).getLast? ≠ some 'A' := by
  induction word using digits.induct with
  | case1 word small =>
      rw [digits, if_pos small, List.getLast?_singleton]
      intro isZero
      have isDigit := digitValue?_digit (show word < 64 by omega)
      rw [Option.some.inj isZero] at isDigit
      exact nonzero (Option.some.inj isDigit).symm
  | case2 word large ih =>
      rw [digits, if_neg large, List.getLast?_cons_of_ne_nil (digits_ne_nil _)]
      exact ih (by omega)

theorem minimal_digits (word : Nat) :
    1 < (digits word).length → (digits word).getLast? ≠ some 'A' := by
  intro several
  apply getLast?_digits_ne
  intro isZero
  rw [isZero, digits, if_pos (by decide)] at several
  exact absurd several (Nat.lt_irrefl 1)

theorem word_signed {word : Nat} (fits : (signed word).natAbs ≤ limit) :
    Vlq.word (signed word) = if word = 1 then 0 else word := by
  have small : word < 0x10000000000000000 := by
    unfold signed limit at fits
    split at fits <;> omega
  have whole : 2 * (signed word).natAbs % 0x10000000000000000 = 2 * (signed word).natAbs := by
    unfold limit at fits
    exact Nat.mod_eq_of_lt (by omega)
  rw [Vlq.word, whole, signed]
  split
  · by_cases isOne : word = 1
    · rw [if_pos isOne, if_neg (by omega)]
      omega
    · rw [if_neg isOne, if_pos (by omega)]
      omega
  · rw [if_neg (by omega), if_neg (by omega)]
    omega

/-- A number is written in no more digits than it was read from, and in the same ones exactly if
these are its one spelling. -/
theorem Run.shortens {group : List Char} {word : Nat} (run : Run group word)
    (fits : (signed word).natAbs ≤ limit) :
    Shortens (encode (signed word)) group (Canonical group) := by
  have isWord := word_signed fits
  rw [encode, isWord]
  by_cases isOne : word = 1
  · have isZero : digits 0 = ['A'] := by
      rw [digits, if_pos (by decide)]
      rfl
    rw [if_pos isOne, isZero]
    rw [isOne] at run
    refine ⟨run.length_pos, ?_⟩
    constructor
    · intro same
      rw [← same, ← isZero] at run
      exact absurd (run.unique (run_digits 0)) Nat.one_ne_zero
    · intro canonical
      exact absurd run canonical.notNegativeZero
  · rw [if_neg isOne]
    refine ⟨run.length_digits_le, ?_⟩
    constructor
    · intro same
      refine ⟨?_, fun negativeZero => isOne (run.unique negativeZero)⟩
      rw [← same]
      exact minimal_digits word
    · intro canonical
      exact run.digits_eq canonical.minimal

theorem Spells.shortens {piece : List Char} {values : List Int} (spells : Spells piece values) :
    Shortens (encodeAll values) piece (∀ group ∈ groups piece, Canonical group) := by
  induction spells with
  | nil => exact ⟨Nat.le_refl 0, by simp [encodeAll, groups]⟩
  | cons run short fits others ih =>
      refine ((run.shortens fits).append ih).congr ?_
      rw [run.groups_append, List.forall_mem_cons]

end Vlq

namespace Mappings

/-! ### Canonical texts -/

/-- A line without empty pieces next to a comma, whose numbers have their one spelling. -/
structure CanonicalLine (line : List Char) : Prop where
  noEmptyPiece : ',' ∈ line → [] ∉ line.splitOn ','
  groups : ∀ piece ∈ line.splitOn ',', ∀ group ∈ Vlq.groups piece, Vlq.Canonical group

/-- A text of such lines without a semicolon at its end. -/
structure Canonical (text : String) : Prop where
  noTrailing : text.toList.getLast? ≠ some ';'
  lines : ∀ line ∈ text.toList.splitOn ';', CanonicalLine line

def writeLine (pieces : List (List Int)) : List Char :=
  [','].intercalate (pieces.map Vlq.encodeAll)

/-- What is written of lines. Behind the last line that has a piece nothing is written. -/
def writeLines : List (List (List Int)) → List Char
  | [] => []
  | pieces :: rest =>
      writeLine pieces ++ if rest.all List.isEmpty then [] else ';' :: writeLines rest

theorem cons_intercalate (separator : Char) (part : List Char) (rest : List (List Char)) :
    separator :: [separator].intercalate (part :: rest) =
      (part :: rest).flatMap (separator :: ·) := by
  induction rest generalizing part with
  | nil => simp
  | cons next rest ih =>
      rw [List.intercalate_cons_cons, List.flatMap_cons, ← ih]
      simp

theorem pieces_shorten {parts : List (List Char)} {pieces : List (List Int)}
    (spelled : List.Forall₂ Vlq.Spells (parts.filter fun part => part ≠ []) pieces) :
    Shortens ((pieces.map Vlq.encodeAll).flatMap (',' :: ·)) (parts.flatMap (',' :: ·))
      ([] ∉ parts ∧ ∀ part ∈ parts, ∀ group ∈ Vlq.groups part, Vlq.Canonical group) := by
  induction parts generalizing pieces with
  | nil =>
      cases spelled
      exact ⟨Nat.le_refl 0, by simp⟩
  | cons part rest ih =>
      by_cases isEmpty : part = []
      · rw [isEmpty, List.filter_cons_of_neg (by simp)] at spelled
        refine .of_lt ?_ fun inOrder => inOrder.1 (isEmpty ▸ List.mem_cons_self)
        rw [List.flatMap_cons, List.length_append, isEmpty, List.length_singleton]
        have fewer := (ih spelled).length_le
        omega
      · rw [List.filter_cons_of_pos (by simpa using isEmpty)] at spelled
        cases spelled with
        | cons spells others =>
            refine (((Shortens.cons_iff ',').mpr spells.shortens).append (ih others)).congr ?_
            rw [List.mem_cons, List.forall_mem_cons]
            have some : ¬ [] = part := fun same => isEmpty same.symm
            tauto

theorem line_shortens {line : List Char} {pieces : List (List Int)}
    (spelled : List.Forall₂ Vlq.Spells ((line.splitOn ',').filter fun piece => piece ≠ [])
      pieces) : Shortens (writeLine pieces) line (CanonicalLine line) := by
  obtain ⟨part, rest, isSplit⟩ := List.exists_cons_of_ne_nil (List.splitOn_ne_nil ',' line)
  cases pieces with
  | nil =>
      have allEmpty : ∀ piece ∈ line.splitOn ',', piece = [] := by
        simpa using List.forall₂_nil_right_iff.mp spelled
      refine ⟨Nat.zero_le _, ?_⟩
      constructor
      · intro isEmpty
        rw [← isEmpty]
        exact ⟨by simp [writeLine], by simp [writeLine, Vlq.groups]⟩
      · intro canonical
        have noComma : ',' ∉ line := by
          intro comma
          have member : part ∈ line.splitOn ',' := isSplit ▸ List.mem_cons_self
          exact canonical.noEmptyPiece comma (allEmpty part member ▸ member)
        rw [List.splitOn_eq_singleton noComma] at allEmpty
        exact (allEmpty line (List.mem_singleton_self line)).symm
  | cons values others =>
      have isLine : ',' :: line = (line.splitOn ',').flatMap (',' :: ·) := by
        rw [isSplit, ← cons_intercalate, ← isSplit, List.intercalate_splitOn]
      rw [← Shortens.cons_iff ',', isLine, writeLine, List.map_cons, cons_intercalate,
        ← List.map_cons]
      refine (pieces_shorten spelled).congr ?_
      constructor
      · intro inOrder
        exact ⟨fun _ => inOrder.1, inOrder.2⟩
      · intro canonical
        refine ⟨?_, canonical.groups⟩
        intro hasEmpty
        by_cases comma : ',' ∈ line
        · exact canonical.noEmptyPiece comma hasEmpty
        · -- The only piece is not empty, since something has been spelled.
          rw [List.splitOn_eq_singleton comma] at hasEmpty spelled
          rw [← List.mem_singleton.mp hasEmpty] at spelled
          cases spelled

theorem writeLines_of_blank {lines : List (List (List Int))}
    (blank : lines.all List.isEmpty = true) : writeLines lines = [] := by
  cases lines with
  | nil => rfl
  | cons pieces rest =>
      rw [List.all_cons, Bool.and_eq_true, List.isEmpty_iff] at blank
      rw [writeLines, blank.1, if_pos blank.2]
      rfl

theorem getLast?_semicolon (line text : List Char) :
    (line ++ ';' :: text).getLast? ≠ some ';' ↔ text ≠ [] ∧ text.getLast? ≠ some ';' := by
  cases text with
  | nil => simp
  | cons character rest => simp [List.getLast?_append]

section Lines

variable {written : List (List Char)} {lines : List (List (List Int))}
  (spelled : List.Forall₂
    (fun line pieces =>
      List.Forall₂ Vlq.Spells ((line.splitOn ',').filter fun piece => piece ≠ []) pieces)
    written lines)

include spelled

theorem blank_of_intercalate_eq_nil (isEmpty : [';'].intercalate written = []) :
    lines.all List.isEmpty = true := by
  cases spelled with
  | nil => rfl
  | @cons line pieces rest others spells spelled =>
      cases spelled with
      | nil =>
          rw [List.intercalate_singleton] at isEmpty
          rw [isEmpty, List.splitOn_nil] at spells
          cases spells
          rfl
      | cons _ _ =>
          rw [List.intercalate_cons_cons] at isEmpty
          simp at isEmpty

theorem lines_shorten (nonempty : written ≠ []) (unseparated : ∀ line ∈ written, ';' ∉ line) :
    Shortens (writeLines lines) ([';'].intercalate written)
      (([';'].intercalate written).getLast? ≠ some ';' ∧
        ∀ line ∈ written, CanonicalLine line) := by
  induction spelled with
  | nil => exact absurd rfl nonempty
  | @cons line pieces rest others spells spelled ih =>
      have first := line_shortens spells
      rw [writeLines, List.forall_mem_cons]
      by_cases atEnd : rest = []
      · rw [atEnd] at spelled ⊢
        cases spelled
        rw [List.all_nil, if_pos rfl, List.append_nil, List.intercalate_singleton]
        refine first.congr ?_
        have noSemicolon : line.getLast? ≠ some ';' := fun isLast =>
          unseparated line List.mem_cons_self (List.mem_of_getLast? isLast)
        exact ⟨fun canonical => ⟨noSemicolon, canonical, List.forall_mem_nil _⟩,
          fun canonical => canonical.2.1⟩
      · have behind := ih atEnd fun line member =>
          unseparated line (List.mem_cons_of_mem _ member)
        have whole : [';'].intercalate (line :: rest) = line ++ ';' :: [';'].intercalate rest := by
          obtain ⟨next, further, isRest⟩ := List.exists_cons_of_ne_nil atEnd
          rw [isRest, List.intercalate_cons_cons, List.append_assoc, List.singleton_append]
        have empty := blank_of_intercalate_eq_nil spelled
        rw [whole, getLast?_semicolon]
        generalize [';'].intercalate rest = text at behind empty
        by_cases blank : others.all List.isEmpty = true
        · -- Nothing more is written, but there is a semicolon, and more after it.
          rw [if_pos blank, List.append_nil]
          refine .of_lt ?_ ?_
          · have lengths := first.length_le
            rw [List.length_append, List.length_cons]
            omega
          · intro inOrder
            have isText := behind.eq_iff.mpr ⟨inOrder.1.2, inOrder.2.2⟩
            rw [writeLines_of_blank blank] at isText
            exact inOrder.1.1 isText.symm
        · rw [if_neg blank]
          refine (first.append ((Shortens.cons_iff ';').mpr behind)).congr ?_
          have some : text ≠ [] := fun isEmpty => blank (empty isEmpty)
          tauto

end Lines

/-! ### Writing again -/

/-- The sums up to a piece are what its segment says, so that the differences are its numbers, and
the writer is behind it where the sums are. -/
theorem Standing.Admissible.written {piece : Standing} (admissible : piece.Admissible) :
    (Totals.summed piece.above piece.before).deltas piece.segment = piece.values ∧
      (Totals.summed piece.above piece.before).moveTo piece.segment = piece.totals := by
  obtain ⟨line, above, before, values⟩ := piece
  have fieldCount := admissible.fieldCount
  have column := admissible.column.1
  have source := fun traced => (admissible.source traced).1
  have sourceLine := fun traced => (admissible.sourceLine traced).1
  have sourceColumn := fun traced => (admissible.sourceColumn traced).1
  have name := fun named => (admissible.name named).1
  simp only [Standing.segment, Standing.isTraced, Standing.isNamed, Standing.totals,
    Totals.summed_append_singleton] at *
  generalize Totals.summed above before = totals at *
  obtain _ | ⟨delta, _ | ⟨sourceDelta, _ | ⟨lineDelta, _ | ⟨columnDelta, _ | ⟨nameDelta, _ |
    ⟨_, _⟩⟩⟩⟩⟩⟩ := values
  · simp at fieldCount
  · have column : 0 ≤ totals.column + delta := column
    simp [Totals.deltas, Totals.moveTo, column]
  · simp at fieldCount
  · simp at fieldCount
  · have column : 0 ≤ totals.column + delta := column
    have source : 0 ≤ totals.source + sourceDelta := source rfl
    have sourceLine : 0 ≤ totals.sourceLine + lineDelta + 1 := sourceLine rfl
    have sourceColumn : 0 ≤ totals.sourceColumn + columnDelta := sourceColumn rfl
    simp [Totals.deltas, Totals.moveTo, column, source, sourceLine, sourceColumn]
  · have column : 0 ≤ totals.column + delta := column
    have source : 0 ≤ totals.source + sourceDelta := source rfl
    have sourceLine : 0 ≤ totals.sourceLine + lineDelta + 1 := sourceLine rfl
    have sourceColumn : 0 ≤ totals.sourceColumn + columnDelta := sourceColumn rfl
    have name : 0 ≤ totals.name + nameDelta := name rfl
    simp [Totals.deltas, Totals.moveTo, column, source, sourceLine, sourceColumn, name]
  · simp at fieldCount

theorem encodeFrom_lineStandings {line : Nat} {above before pieces : List (List Int)}
    (admissible : ∀ piece ∈ lineStandings line above before pieces, piece.Admissible)
    (others : List Segment) :
    encodeFrom line true (Totals.summed above before)
        ((lineStandings line above before pieces).map Standing.segment ++ others) =
      (pieces.map Vlq.encodeAll).flatMap (',' :: ·) ++
        encodeFrom line true (Totals.summed above (before ++ pieces)) others := by
  induction pieces generalizing before with
  | nil =>
      rw [List.append_nil]
      rfl
  | cons values rest ih =>
      obtain ⟨deltas, moved⟩ := (admissible _ List.mem_cons_self).written
      have onLine : (Standing.segment ⟨line, above, before, values⟩).position.line - line = 0 :=
        Nat.sub_self line
      rw [lineStandings, List.map_cons, List.cons_append, encodeFrom]
      simp only [onLine, if_true, and_true, List.replicate_zero, List.nil_append, Nat.add_zero]
      rw [deltas, moved, Standing.totals, ih fun piece member =>
        admissible piece (List.mem_cons_of_mem _ member)]
      simp

theorem encodeFrom_below {line : Nat} {started : Bool} {totals : Totals}
    {segments : List Segment} (below : ∀ segment ∈ segments, line < segment.position.line) :
    encodeFrom line started totals segments =
      if segments.isEmpty then []
      else ';' :: encodeFrom (line + 1) false totals.startLine segments := by
  cases segments with
  | nil => rfl
  | cons segment rest =>
      have isBelow := below segment List.mem_cons_self
      have skipped : segment.position.line - line = segment.position.line - (line + 1) + 1 := by
        omega
      have reached : line + (segment.position.line - (line + 1) + 1) =
          line + 1 + (segment.position.line - (line + 1)) := by
        omega
      rw [encodeFrom, encodeFrom, skipped, reached]
      simp [List.replicate_succ, Totals.startLine_startLine]

theorem cons_encodeFrom {line : Nat} {totals : Totals} {segment : Segment}
    (onLine : segment.position.line = line) (rest : List Segment) :
    ',' :: encodeFrom line false totals (segment :: rest) =
      encodeFrom line true totals (segment :: rest) := by
  rw [encodeFrom, encodeFrom, onLine, Nat.sub_self]
  rfl

theorem isEmpty_standings (line : Nat) (above : List (List Int))
    (lines : List (List (List Int))) :
    (standings line above lines).isEmpty = lines.all List.isEmpty := by
  induction lines generalizing line above with
  | nil => rfl
  | cons pieces rest ih =>
      rw [List.all_cons, ← ih (line + 1) (above ++ pieces), standings]
      cases pieces <;> rfl

/-- Segments that say the sums of lines of numbers are written as these numbers. -/
theorem encodeFrom_standings {line : Nat} {above : List (List Int)}
    {lines : List (List (List Int))}
    (admissible : ∀ piece ∈ standings line above lines, piece.Admissible) :
    encodeFrom line false (Totals.summed above []) ((standings line above lines).map
      Standing.segment) = writeLines lines := by
  induction lines generalizing line above with
  | nil => rfl
  | cons pieces rest ih =>
      have below : ∀ segment ∈ (standings (line + 1) (above ++ pieces) rest).map Standing.segment,
          line < segment.position.line := by
        rw [List.forall_mem_map]
        intro piece member
        exact (line_of_mem_standings member).1
      have behind (started : Bool) :
          encodeFrom line started (Totals.summed above pieces) _ = _ := encodeFrom_below below
      rw [List.isEmpty_map, isEmpty_standings, Totals.startLine_summed, ih fun piece member =>
        admissible piece (List.mem_append_right _ member)] at behind
      rw [standings, List.map_append, writeLines]
      cases pieces with
      | nil => exact behind false
      | cons values others =>
          rw [← List.cons_inj_right ',', ← List.cons_append, writeLine, List.map_cons,
            cons_intercalate, ← List.map_cons, ← behind true]
          have onLine := encodeFrom_lineStandings (fun piece member =>
            admissible piece (List.mem_append_left _ member))
            ((standings (line + 1) (above ++ (values :: others)) rest).map Standing.segment)
          rw [List.nil_append] at onLine
          rw [← onLine]
          exact cons_encodeFrom rfl _

theorem not_mem_of_mem_splitOn {separator : Char} {text part : List Char}
    (member : part ∈ text.splitOn separator) : separator ∉ part := by
  induction text generalizing part with
  | nil =>
      rw [List.splitOn_nil, List.mem_singleton] at member
      rw [member]
      exact List.not_mem_nil
  | cons character rest ih =>
      rw [List.splitOn_cons_eq_if_modifyHead] at member
      split at member
      · rcases List.mem_cons.mp member with isFirst | inRest
        · rw [isFirst]
          exact List.not_mem_nil
        · exact ih inRest
      · rename_i different
        obtain ⟨head, tail, isSplit⟩ :=
          List.exists_cons_of_ne_nil (List.splitOn_ne_nil separator rest)
        rw [isSplit] at ih member
        rcases List.mem_cons.mp member with isFirst | inRest
        · rw [isFirst, List.mem_cons, not_or]
          exact ⟨fun same => different (beq_of_eq same.symm), ih List.mem_cons_self⟩
        · exact ih (List.mem_cons_of_mem _ inRest)

theorem utf8ByteSize_cons (character : Char) (rest : List Char) :
    (String.ofList (character :: rest)).utf8ByteSize =
      character.utf8Size + (String.ofList rest).utf8ByteSize := by
  rw [String.ofList_cons, String.utf8ByteSize_append, String.utf8ByteSize_singleton]

theorem length_le_utf8ByteSize (characters : List Char) :
    characters.length ≤ (String.ofList characters).utf8ByteSize := by
  induction characters with
  | nil => exact Nat.zero_le _
  | cons character rest ih =>
      have some := character.utf8Size_pos
      rw [utf8ByteSize_cons, List.length_cons]
      omega

theorem utf8ByteSize_eq_length {characters : List Char}
    (ascii : ∀ character ∈ characters, character.utf8Size = 1) :
    (String.ofList characters).utf8ByteSize = characters.length := by
  induction characters with
  | nil => rfl
  | cons character rest ih =>
      rw [List.forall_mem_cons] at ascii
      rw [utf8ByteSize_cons, ascii.1, ih ascii.2, List.length_cons, Nat.add_comm]

theorem utf8Size_of_mem_encodeFrom {line : Nat} {started : Bool} {totals : Totals}
    {segments : List Segment} :
    ∀ character ∈ encodeFrom line started totals segments, character.utf8Size = 1 := by
  induction segments generalizing line started totals with
  | nil => exact List.forall_mem_nil _
  | cons segment rest ih =>
      intro character member
      rw [encodeFrom] at member
      simp only [List.mem_append] at member
      rcases member with ((isSemicolon | isComma) | isDigit) | inRest
      · rw [List.eq_of_mem_replicate isSemicolon]
        decide
      · split at isComma
        · rw [List.mem_singleton.mp isComma]
          decide
        · cases isComma
      · obtain ⟨value, isValue⟩ := Vlq.digitValue?_of_mem_encodeAll isDigit
        obtain ⟨isCharacter, small⟩ := Vlq.digit_of_digitValue?_eq isValue
        have oneByte : ∀ value : Fin 64, (Vlq.digit value.val).utf8Size = 1 := by decide +kernel
        rw [← isCharacter]
        exact oneByte ⟨value, small⟩
      · exact ih character inRest

/-- A text that has been read is written again in no more bytes, and comes back as it was
exactly if it is canonical. -/
theorem encode_decode {text : String} {segments : List Segment}
    (read : decode text = .ok segments) :
    (encode segments).utf8ByteSize ≤ text.utf8ByteSize ∧
      (encode segments = text ↔ Canonical text) := by
  obtain ⟨lines, spelled, _, admissible, isSegments⟩ := exists_spells_of_decode read
  have isWritten : encode segments = String.ofList (writeLines lines) := by
    rw [encode, isSegments, ← Totals.summed_nil, encodeFrom_standings admissible]
  have shortens := lines_shorten spelled (List.splitOn_ne_nil _ _)
    fun _ => not_mem_of_mem_splitOn
  rw [List.intercalate_splitOn] at shortens
  constructor
  · calc (encode segments).utf8ByteSize
        = (writeLines lines).length := by
          rw [← encodeFrom_standings admissible, Totals.summed_nil, ← isSegments, encode,
            utf8ByteSize_eq_length utf8Size_of_mem_encodeFrom]
      _ ≤ text.toList.length := shortens.length_le
      _ ≤ (String.ofList text.toList).utf8ByteSize := length_le_utf8ByteSize _
      _ = text.utf8ByteSize := by rw [String.ofList_toList]
  · rw [isWritten, ← String.toList_inj, String.toList_ofList, shortens.eq_iff]
    exact ⟨fun canonical => ⟨canonical.1, canonical.2⟩,
      fun canonical => ⟨canonical.noTrailing, canonical.lines⟩⟩

theorem encode_decode_respelled :
    (∃ segments, decode "YCAAA,K,CAAMC;;AACN" = .ok segments ∧
      (encode segments).utf8ByteSize ≤ "YCAAA,K,CAAMC;;AACN".utf8ByteSize ∧
        Canonical "YCAAA,K,CAAMC;;AACN") ∧
      ∀ text ∈ ["AAAA;", ",AAAA", "gAAAA", "BAAA"], ∃ segments, decode text = .ok segments ∧
        (encode segments).utf8ByteSize ≤ text.utf8ByteSize ∧ ¬ Canonical text := by
  constructor
  · have read : decode "YCAAA,K,CAAMC;;AACN" =
        .ok [⟨⟨1, 12⟩, some ⟨1, 1, 0, some 0⟩⟩, ⟨⟨1, 17⟩, none⟩,
          ⟨⟨1, 18⟩, some ⟨1, 1, 6, some 1⟩⟩, ⟨⟨3, 0⟩, some ⟨1, 2, 0, none⟩⟩] := by
      rfl
    obtain ⟨noLonger, same⟩ := encode_decode read
    exact ⟨_, read, noLonger, same.mp (by decide +kernel)⟩
  · have written : encode [⟨⟨1, 0⟩, some ⟨0, 1, 0, none⟩⟩] = "AAAA" := by decide +kernel
    have read : ∀ text ∈ ["AAAA;", ",AAAA", "gAAAA", "BAAA"],
        decode text = .ok [⟨⟨1, 0⟩, some ⟨0, 1, 0, none⟩⟩] := by
      decide +kernel
    have different : "AAAA" ∉ ["AAAA;", ",AAAA", "gAAAA", "BAAA"] := by decide
    intro text member
    obtain ⟨noLonger, same⟩ := encode_decode (read text member)
    refine ⟨_, read text member, noLonger, fun canonical => different ?_⟩
    rw [← written, same.mpr canonical]
    exact member

end Mappings

end SourceWeave
