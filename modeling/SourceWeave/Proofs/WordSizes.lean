import SourceWeave.Proofs.GuardedReading
import SourceWeave.Proofs.RoundTrip

/-!
Reading in words of sixty-four bits. A text is gone through piece by piece, and what is kept on
the way are totals that have passed their checks. So no total ever takes more than thirty-two bits
and a sign, and a sum of a total and a number of a piece not more than one bit beside that. The sums
of a piece are listed, and a reader that adds words, and only what is listed, reads the same. Within
a piece, the bits of an open group stay below the place at which the next digit is put.
-/

set_option autoImplicit false

namespace SourceWeave

namespace Vlq

/-- A reading of a segment comes by `reading` with `rest` still to be read. -/
def Passes (segment : String) (reading : Reading) (rest : List Char) : Prop :=
  ∃ front, segment.toList = front ++ rest ∧
    front.foldlM (Reading.read segment) {} = .ok reading

structure Reading.Packed (reading : Reading) : Prop where
  bits : reading.bits < 2 ^ reading.shift
  shift : reading.shift ≤ 35

theorem Reading.Packed.further {reading : Reading} (packed : reading.Packed) (value : Nat) :
    reading.bits + (value % 32) <<< reading.shift < 2 ^ (reading.shift + 5) := by
  have below := packed.bits
  have data : value % 32 + 1 ≤ 2 ^ 5 := Nat.mod_lt _ (by decide)
  calc reading.bits + (value % 32) <<< reading.shift
      < 2 ^ reading.shift + (value % 32) * 2 ^ reading.shift := by
        rw [Nat.shiftLeft_eq]
        omega
    _ = (value % 32 + 1) * 2 ^ reading.shift := by rw [Nat.succ_mul, Nat.add_comm]
    _ ≤ 2 ^ 5 * 2 ^ reading.shift := Nat.mul_le_mul_right _ data
    _ = 2 ^ (reading.shift + 5) := by rw [Nat.pow_add, Nat.mul_comm]

theorem Reading.Packed.read {segment : String} {reading next : Reading} {character : Char}
    (packed : reading.Packed) (read : reading.read segment character = .ok next) :
    next.Packed := by
  cases isDigit : digitValue? character with
  | none => exact absurd read (read_of_not_digit segment isDigit next)
  | some value =>
      rw [Reading.read, isDigit] at read
      simp only at read
      split at read
      · cases read
      · rename_i inRoom
        split at read
        · rw [Reading.close] at read
          split at read
          · cases read
          · cases read
            exact ⟨Nat.zero_lt_one, Nat.zero_le _⟩
        · cases read
          exact ⟨packed.further value, by simp only; omega⟩

theorem Reading.packed_of_foldlM {segment : String} {front : List Char} {start reading : Reading}
    (packed : start.Packed) (read : front.foldlM (Reading.read segment) start = .ok reading) :
    reading.Packed := by
  induction front generalizing start with
  | nil =>
      cases read
      exact packed
  | cons character rest ih =>
      rw [List.foldlM_cons] at read
      obtain ⟨next, isNext, read⟩ := exists_of_bind_eq_ok read
      exact ih (packed.read isNext) read

/-- A digit that there is room for is put into a word as it is into the bits: nothing of it is
shifted out, it falls onto no bit that is set, and what remains without the sign is a number with
a sign in sixty-four bits. -/
structure Reading.HasRoom (reading : Reading) (value : Nat) : Prop where
  shifted : (UInt64.ofNat (value % 32) <<< UInt64.ofNat reading.shift).toNat =
    (value % 32) <<< reading.shift
  joined : (UInt64.ofNat reading.bits |||
      UInt64.ofNat (value % 32) <<< UInt64.ofNat reading.shift).toNat =
    reading.bits + (value % 32) <<< reading.shift
  halved : (reading.bits + (value % 32) <<< reading.shift) / 2 < 2 ^ 63

theorem Reading.Packed.hasRoom {reading : Reading} (packed : reading.Packed)
    (room : reading.shift ≤ 30) (value : Nat) : reading.HasRoom value := by
  have within : reading.bits + (value % 32) <<< reading.shift < 2 ^ 35 :=
    Nat.lt_of_lt_of_le (packed.further value)
      (Nat.pow_le_pow_right (by decide) (Nat.add_le_add_right room 5))
  have shifted : (UInt64.ofNat (value % 32) <<< UInt64.ofNat reading.shift).toNat =
      (value % 32) <<< reading.shift := by
    rw [UInt64.toNat_shiftLeft, UInt64.toNat_ofNat', UInt64.toNat_ofNat',
      Nat.mod_eq_of_lt (by omega : value % 32 < 2 ^ 64),
      Nat.mod_eq_of_lt (by omega : reading.shift < 2 ^ 64),
      Nat.mod_eq_of_lt (by omega : reading.shift < 64), Nat.mod_eq_of_lt (by omega)]
  refine ⟨shifted, ?_, by omega⟩
  rw [UInt64.toNat_or, shifted, UInt64.toNat_ofNat', Nat.mod_eq_of_lt (by omega),
    Nat.add_comm, Nat.shiftLeft_add_eq_or_of_lt packed.bits, Nat.or_comm]

theorem Passes.hasRoom {segment : String} {reading : Reading} {rest : List Char}
    (passes : Passes segment reading rest) (room : reading.shift ≤ 30) (value : Nat) :
    reading.HasRoom value := by
  obtain ⟨front, _, read⟩ := passes
  have initial : Reading.Packed {} := ⟨by decide, by decide⟩
  exact (Reading.packed_of_foldlM initial read).hasRoom room value

theorem Spells.natAbs_le {characters : List Char} {values : List Int}
    (spells : Spells characters values) : ∀ value ∈ values, value.natAbs ≤ limit := by
  induction spells with
  | nil => exact List.forall_mem_nil _
  | cons _ _ fits _ ih => exact List.forall_mem_cons.mpr ⟨fits, ih⟩

end Vlq

/-! ### Totals of a text -/

namespace Mappings

inductive Token
  | line
  | piece (written : String)

def tokens (text : String) : List Token :=
  (text.toList.splitOn ';').flatMap fun line => .line :: (pieces line).map .piece

/-- How far a text has been read: the line, zero in front of the first one, whether a segment
has been read on it, the totals, and all segments so far. -/
structure Progress where
  line : Nat := 0
  started : Bool := false
  totals : Totals := {}
  segments : List Segment := []

def Progress.take (progress : Progress) : Token → Except Malformation Progress
  | .line => do
      let number ← inRange .generatedLine (progress.line + 1 : Nat)
      return { progress with
        line := number, started := false, totals := progress.totals.startLine }
  | .piece written => do
      let (segment, totals) ←
        decodeSegment progress.line progress.started progress.totals written
      return { progress with
        started := true, totals, segments := progress.segments ++ [segment] }

theorem foldlM_take_pieces (written : List String) (progress : Progress) :
    (written.map Token.piece).foldlM Progress.take progress =
      (decodeSegments progress.line progress.started progress.totals written).map fun read =>
        { progress with
          started := progress.started || !written.isEmpty
          totals := read.2
          segments := progress.segments ++ read.1 } := by
  induction written generalizing progress with
  | nil => simp [decodeSegments, Except.map, pure, Except.pure]
  | cons first rest ih =>
      rw [List.map_cons, List.foldlM_cons, decodeSegments, Progress.take]
      cases decodeSegment progress.line progress.started progress.totals first with
      | error cause => rfl
      | ok read =>
          simp only [ok_bind, pure, Except.pure, ih]
          cases decodeSegments progress.line true read.2 rest with
          | error cause => rfl
          | ok others => simp [Except.map, bind, Except.bind]

theorem foldlM_take_lines (lines : List (List Char)) (progress : Progress) :
    ((lines.flatMap fun line => .line :: (pieces line).map .piece).foldlM
        Progress.take progress).map Progress.segments =
      (decodeLines (progress.line + 1) progress.totals lines).map
        (progress.segments ++ ·) := by
  induction lines generalizing progress with
  | nil => simp [decodeLines, Except.map, pure, Except.pure]
  | cons line rest ih =>
      rw [List.flatMap_cons, List.cons_append, List.foldlM_cons, decodeLines, Progress.take]
      cases isNumber : inRange .generatedLine (progress.line + 1 : Nat) with
      | error cause => rfl
      | ok number =>
          have sameNumber : number = progress.line + 1 := (inRange_eq_ok_iff.mp isNumber).2
          simp only [ok_bind, pure, Except.pure, List.foldlM_append, foldlM_take_pieces]
          cases decodeSegments number false progress.totals.startLine (pieces line) with
          | error cause => rfl
          | ok read =>
              rw [Except.map, ok_bind, ih, sameNumber, ok_bind]
              cases decodeLines (progress.line + 1 + 1) read.2 rest with
              | error cause => rfl
              | ok others => simp [Except.map, bind, Except.bind]

theorem decode_eq_foldlM (text : String) :
    decode text = ((tokens text).foldlM Progress.take {}).map Progress.segments := by
  rw [tokens, foldlM_take_lines, decode]
  cases decodeLines 1 {} (text.toList.splitOn ';') <;> rfl

def Passes (text : String) (progress : Progress) (rest : List Token) : Prop :=
  ∃ front, tokens text = front ++ rest ∧ front.foldlM Progress.take {} = .ok progress

theorem advanceColumn_bounded {totals moved : Totals} {line column : Nat} {started : Bool}
    {delta : Int} (bounded : totals.Bounded)
    (advanced : totals.advanceColumn line started delta = .ok (column, moved)) :
    moved.Bounded := by
  obtain ⟨within, _, _, isMoved⟩ := advanceColumn_eq_ok_iff.mp advanced
  rw [isMoved]
  exact { bounded with column := within }

theorem advanceOrigin_bounded {totals moved : Totals} {source line column : Int}
    {name : Option Int} {location : Location} (bounded : totals.Bounded)
    (advanced : totals.advanceOrigin source line column name = .ok (location, moved)) :
    moved.Bounded := by
  obtain ⟨nameWithin, sourceWithin, lineWithin, columnWithin, _, isMoved⟩ :=
    advanceOrigin_eq_ok_iff.mp advanced
  have keptName : InRange (totals.name + name.getD 0) := by
    cases name with
    | none =>
        rw [Option.getD_none, Int.add_zero]
        exact bounded.name
    | some delta => exact nameWithin delta rfl
  unfold InRange at lineWithin
  rw [isMoved]
  exact
    { column := bounded.column
      source := sourceWithin
      sourceLine := by simp only; omega
      sourceColumn := columnWithin
      name := keptName }

theorem decodeSegment_bounded {line : Nat} {started : Bool} {totals moved : Totals}
    {written : String} {segment : Segment} (bounded : totals.Bounded)
    (read : decodeSegment line started totals written = .ok (segment, moved)) : moved.Bounded := by
  obtain ⟨values, _, read⟩ := exists_of_bind_eq_ok read
  split at read
  · obtain ⟨⟨_, advanced⟩, isColumn, read⟩ := exists_of_bind_eq_ok read
    cases read
    exact advanceColumn_bounded bounded isColumn
  · obtain ⟨⟨_, advanced⟩, isColumn, read⟩ := exists_of_bind_eq_ok read
    obtain ⟨⟨_, last⟩, isOrigin, read⟩ := exists_of_bind_eq_ok read
    cases read
    exact advanceOrigin_bounded (advanceColumn_bounded bounded isColumn) isOrigin
  · obtain ⟨⟨_, advanced⟩, isColumn, read⟩ := exists_of_bind_eq_ok read
    obtain ⟨⟨_, last⟩, isOrigin, read⟩ := exists_of_bind_eq_ok read
    cases read
    exact advanceOrigin_bounded (advanceColumn_bounded bounded isColumn) isOrigin
  · cases read

structure Progress.Bounded (progress : Progress) : Prop where
  line : progress.line ≤ Vlq.limit
  totals : progress.totals.Bounded

theorem Progress.bounded_initial : Progress.Bounded {} :=
  ⟨Nat.zero_le _, Totals.bounded_initial⟩

theorem Progress.Bounded.take {progress next : Progress} {token : Token}
    (bounded : progress.Bounded) (taken : progress.take token = .ok next) : next.Bounded := by
  cases token with
  | line =>
      obtain ⟨number, isNumber, taken⟩ := exists_of_bind_eq_ok taken
      obtain ⟨within, sameNumber⟩ := inRange_eq_ok_iff.mp isNumber
      unfold InRange at within
      cases taken
      exact ⟨by simp only; omega, bounded.totals.startLine⟩
  | piece written =>
      obtain ⟨⟨segment, moved⟩, isSegment, taken⟩ := exists_of_bind_eq_ok taken
      cases taken
      exact ⟨bounded.line, decodeSegment_bounded bounded.totals isSegment⟩

theorem Progress.Bounded.foldlM {tokens : List Token} {progress last : Progress}
    (bounded : progress.Bounded) (taken : tokens.foldlM Progress.take progress = .ok last) :
    last.Bounded := by
  induction tokens generalizing progress with
  | nil =>
      cases taken
      exact bounded
  | cons token rest ih =>
      rw [List.foldlM_cons] at taken
      obtain ⟨next, isNext, taken⟩ := exists_of_bind_eq_ok taken
      exact ih (bounded.take isNext) taken

theorem Passes.bounded {text : String} {progress : Progress} {rest : List Token}
    (passes : Passes text progress rest) : progress.Bounded := by
  obtain ⟨front, _, taken⟩ := passes
  exact Progress.bounded_initial.foldlM taken

def Totals.all (totals : Totals) : List Int :=
  [totals.column, totals.source, totals.sourceLine, totals.sourceColumn, totals.name]

/-- The pairs that are added on the way past a piece of these numbers. A source line is checked
one above its total. Nothing is added if the count of the numbers is refused. -/
def Totals.addends (totals : Totals) : List Int → List (Int × Int)
  | [delta] => [(totals.column, delta)]
  | [delta, source, line, column] =>
      [(totals.column, delta), (totals.source, source), (totals.sourceLine, line),
        (totals.sourceColumn, column), (totals.sourceLine + line, 1)]
  | [delta, source, line, column, name] =>
      [(totals.column, delta), (totals.source, source), (totals.sourceLine, line),
        (totals.sourceColumn, column), (totals.name, name), (totals.sourceLine + line, 1)]
  | _ => []

/-- The pairs that are added on the way past a token, whether it is then taken or refused. -/
def Progress.addends (progress : Progress) : Token → List (Int × Int)
  | .line => [(progress.line, 1)]
  | .piece written =>
      match Vlq.decode written with
      | .ok values => progress.totals.addends values
      | .error _ => []

def SmallSums (listed : List (Int × Int)) : Prop :=
  ∀ pair ∈ listed, (pair.1 + pair.2).natAbs ≤ 2 ^ 33

theorem Totals.Bounded.addends {totals : Totals} (bounded : totals.Bounded) {values : List Int}
    (fit : ∀ value ∈ values, value.natAbs ≤ Vlq.limit) : SmallSums (totals.addends values) := by
  obtain ⟨column, source, sourceLine, sourceColumn, name⟩ := bounded
  unfold Vlq.limit at *
  unfold SmallSums Totals.addends
  split
  case h_4 => exact List.forall_mem_nil _
  all_goals
    simp only [List.forall_mem_cons, List.not_mem_nil, false_imp_iff, implies_true, and_true]
      at fit ⊢
    omega

theorem Progress.Bounded.addends {progress : Progress} (bounded : progress.Bounded)
    (token : Token) : SmallSums (progress.addends token) := by
  cases token with
  | line =>
      have within := bounded.line
      unfold Vlq.limit at within
      rw [SmallSums, Progress.addends, List.forall_mem_singleton]
      omega
  | piece written =>
      rw [Progress.addends]
      cases isRead : Vlq.decode written with
      | error cause => exact List.forall_mem_nil _
      | ok values =>
          exact bounded.totals.addends ((Vlq.decode_eq_ok_iff_spells written).mp isRead).natAbs_le

theorem toInt_add_ofInt {left right : Int} (small : (left + right).natAbs ≤ 2 ^ 33) :
    (Int64.ofInt left + Int64.ofInt right).toInt = left + right := by
  rw [← Int64.ofInt_add, Int64.toInt_ofInt_of_le (by omega) (by omega)]

theorem Totals.Bounded.all {totals : Totals} (bounded : totals.Bounded) :
    ∀ total ∈ totals.all, -1 ≤ total ∧ total ≤ Vlq.limit := by
  obtain ⟨column, source, sourceLine, sourceColumn, name⟩ := bounded
  simp only [Totals.all, List.forall_mem_cons, List.not_mem_nil, false_imp_iff, implies_true,
    and_true]
  omega

end Mappings

/-! ### Under guards -/

namespace Guarded

open Mappings

section Sums

variable (listed : List (Int × Int))

/-- Words with a sign are added, but only those of a pair that is listed. -/
def sum (left right : Int) : ExceptT Malformation Option Int := do
  require ((left, right) ∈ listed)
  return (Int64.ofInt left + Int64.ofInt right).toInt

def sumOfMaybe (total : Int) : Option Int → ExceptT Malformation Option Int
  | none => return total
  | some delta => sum listed total delta

def advanceColumn (totals : Totals) (line : Nat) (started : Bool) (delta : Int) :
    ExceptT Malformation Option (Nat × Totals) := do
  let column ← sum listed totals.column delta
  if started ∧ column ≤ totals.column then
    passed (.error (.columnNotIncreasing column line))
  else
    return (← passed (inRange .generatedColumn column), { totals with column })

def advanceOrigin (totals : Totals) (source line column : Int) (name : Option Int) :
    ExceptT Malformation Option (Location × Totals) := do
  let source ← sum listed totals.source source
  let sourceLine ← sum listed totals.sourceLine line
  let sourceColumn ← sum listed totals.sourceColumn column
  let lastName ← sumOfMaybe listed totals.name name
  let nameIndex ← passed <| match name with
    | none => pure none
    | some _ => some <$> inRange .name lastName
  let sourceIndex ← passed (inRange .source source)
  let lineNumber ← passed (inRange .sourceLine (← sum listed sourceLine 1))
  let columnNumber ← passed (inRange .sourceColumn sourceColumn)
  return (⟨sourceIndex, lineNumber, columnNumber, nameIndex⟩,
    { totals with source, sourceLine, sourceColumn, name := lastName })

def decodeSegment (line : Nat) (started : Bool) (totals : Totals) (written : String) :
    ExceptT Malformation Option (Segment × Totals) := do
  match ← passed (Vlq.decode written) with
  | [delta] =>
      let (column, totals) ← advanceColumn listed totals line started delta
      return (⟨⟨line, column⟩, none⟩, totals)
  | [delta, source, sourceLine, sourceColumn] =>
      let (column, totals) ← advanceColumn listed totals line started delta
      let (location, totals) ← advanceOrigin listed totals source sourceLine sourceColumn none
      return (⟨⟨line, column⟩, some location⟩, totals)
  | [delta, source, sourceLine, sourceColumn, name] =>
      let (column, totals) ← advanceColumn listed totals line started delta
      let (location, totals) ←
        advanceOrigin listed totals source sourceLine sourceColumn (some name)
      return (⟨⟨line, column⟩, some location⟩, totals)
  | values => passed (.error (.fieldCount written values.length))

end Sums

def take (progress : Progress) (token : Token) : ExceptT Malformation Option Progress :=
  let listed := progress.addends token
  match token with
  | .line => do
      let number ← passed (inRange .generatedLine (← sum listed progress.line 1))
      return { progress with
        line := number, started := false, totals := progress.totals.startLine }
  | .piece written => do
      let (segment, totals) ←
        decodeSegment listed progress.line progress.started progress.totals written
      return { progress with
        started := true, totals, segments := progress.segments ++ [segment] }

section Sums

variable {listed : List (Int × Int)} (small : SmallSums listed)

include small

theorem sum_of_mem {left right : Int} (member : (left, right) ∈ listed) :
    sum listed left right = pure (left + right) := by
  rw [sum, require_of member, pure_bind, toInt_add_ofInt (small _ member)]

theorem sumOfMaybe_of_mem {total : Int} {delta : Option Int}
    (member : ∀ number ∈ delta, (total, number) ∈ listed) :
    sumOfMaybe listed total delta = pure (total + delta.getD 0) := by
  cases delta with
  | none => rw [sumOfMaybe, Option.getD_none, Int.add_zero]
  | some number => exact sum_of_mem small (member number rfl)

theorem advanceColumn_eq {totals : Totals} {delta : Int}
    (column : (totals.column, delta) ∈ listed) (line : Nat) (started : Bool) :
    advanceColumn listed totals line started delta =
      passed (totals.advanceColumn line started delta) := by
  rw [advanceColumn, sum_of_mem small column, pure_bind, Totals.advanceColumn]
  split
  · rfl
  · exact passed_bind _ fun _ _ => rfl

theorem advanceOrigin_eq {totals : Totals} {source line column : Int}
    {name : Option Int} (isSource : (totals.source, source) ∈ listed)
    (isLine : (totals.sourceLine, line) ∈ listed)
    (isColumn : (totals.sourceColumn, column) ∈ listed)
    (isName : ∀ delta ∈ name, (totals.name, delta) ∈ listed)
    (isAbove : (totals.sourceLine + line, 1) ∈ listed) :
    advanceOrigin listed totals source line column name =
      passed (totals.advanceOrigin source line column name) := by
  rw [advanceOrigin, sum_of_mem small isSource, pure_bind, sum_of_mem small isLine, pure_bind,
    sum_of_mem small isColumn, pure_bind, sumOfMaybe_of_mem small isName, pure_bind]
  cases name <;>
    simp only [Totals.advanceOrigin, passed_eq_bind, passed_pure, pure_bind,
      sum_of_mem small isAbove]

end Sums

theorem decodeSegment_eq {progress : Progress} (bounded : progress.Bounded) (written : String) :
    decodeSegment (progress.addends (.piece written)) progress.line progress.started
        progress.totals written =
      passed (Mappings.decodeSegment progress.line progress.started progress.totals written) := by
  have small : SmallSums (progress.addends (.piece written)) := bounded.addends _
  rw [decodeSegment, Mappings.decodeSegment]
  apply passed_bind
  intro values isRead
  rw [Progress.addends, isRead] at small ⊢
  simp only at small ⊢
  split
  case h_1 =>
    rw [advanceColumn_eq small List.mem_cons_self]
    exact passed_bind _ fun _ _ => rfl
  case h_4 => simp only [*]
  -- Of the totals to which an origin is added only the column has moved.
  all_goals
    rw [advanceColumn_eq small List.mem_cons_self]
    apply passed_bind
    intro ⟨column, moved⟩ isColumn
    obtain ⟨_, _, _, isMoved⟩ := advanceColumn_eq_ok_iff.mp isColumn
    subst isMoved
    simp only
    rw [advanceOrigin_eq small]
    · exact passed_bind _ fun _ _ => rfl
    all_goals simp [Totals.addends]

theorem take_eq {progress : Progress} (bounded : progress.Bounded) (token : Token) :
    take progress token = passed (progress.take token) := by
  cases token with
  | line =>
      rw [take, Progress.take, sum_of_mem (bounded.addends .line) List.mem_cons_self, pure_bind]
      exact passed_bind _ fun _ _ => rfl
  | piece written =>
      rw [take, Progress.take, decodeSegment_eq bounded]
      exact passed_bind _ fun _ _ => rfl

theorem foldlM_take {tokens : List Token} {progress : Progress} (bounded : progress.Bounded) :
    tokens.foldlM take progress = passed (tokens.foldlM Progress.take progress) := by
  induction tokens generalizing progress with
  | nil => rfl
  | cons token rest ih =>
      rw [List.foldlM_cons, List.foldlM_cons, take_eq bounded]
      apply passed_bind
      intro next taken
      exact ih (bounded.take taken)

end Guarded

namespace Mappings

/-- Reading a text is going through its tokens, which it does the same if only the listed pairs
are added, and those as words. Wherever it comes by, the totals have thirty-two bits and a sign,
what is listed for the next token stays far within a word, also if the token is then refused, and
wherever the reading of a segment has room for a digit, a word holds what the digit is put into. -/
structure WithinWords (text : String) : Prop where
  read : decode text = ((tokens text).foldlM Progress.take {}).map Progress.segments
  guarded : (tokens text).foldlM Guarded.take {} =
    Guarded.passed ((tokens text).foldlM Progress.take {})
  totals : ∀ progress rest, Passes text progress rest →
    ∀ total ∈ progress.totals.all, -1 ≤ total ∧ total ≤ Vlq.limit
  sums : ∀ progress rest, Passes text progress rest →
    ∀ token ∈ rest.head?, ∀ pair ∈ progress.addends token,
      (pair.1 + pair.2).natAbs ≤ 2 ^ 33 ∧
        (Int64.ofInt pair.1 + Int64.ofInt pair.2).toInt = pair.1 + pair.2
  room : ∀ segment reading rest, Vlq.Passes segment reading rest →
    ∀ character ∈ rest.head?, ∀ value ∈ Vlq.digitValue? character,
      reading.shift ≤ 30 → reading.HasRoom value

theorem decode_within_words (text : String) : WithinWords text where
  read := decode_eq_foldlM text
  guarded := Guarded.foldlM_take Progress.bounded_initial
  totals _ _ passes := passes.bounded.totals.all
  sums := by
    intro progress rest passes token _ pair member
    have small := passes.bounded.addends token pair member
    exact ⟨small, toInt_add_ofInt small⟩
  room := by
    intro segment reading rest passes character _ value _ room
    exact passes.hasRoom room value

example : ∃ progress, Passes "AADA,gB" progress [.piece "gB"] ∧ progress.totals.sourceLine = -1 ∧
    progress.addends (.piece "gB") = [(0, 16)] :=
  ⟨_, ⟨[.line, .piece "AADA"], rfl, rfl⟩, rfl, rfl⟩

end Mappings

end SourceWeave
