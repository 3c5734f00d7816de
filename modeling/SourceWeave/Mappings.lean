import SourceWeave.Segment
import SourceWeave.Vlq

/-!
The mappings text of a source map. Semicolons end generated lines and commas
stand between the segments of a line. A segment is one, four or five numbers,
each the difference to a running total; the generated column starts over on
every line, the other totals run through the whole text. Source lines are
written from zero and held from one.
-/

set_option autoImplicit false

namespace SourceWeave.Mappings

structure Totals where
  column : Int := 0
  source : Int := 0
  sourceLine : Int := 0
  sourceColumn : Int := 0
  name : Int := 0
deriving DecidableEq, Repr

def Totals.startLine (totals : Totals) : Totals :=
  { totals with column := 0 }

/-! ### Reading -/

def inRange (total : Total) (value : Int) : Except Malformation Nat :=
  if 0 ≤ value ∧ value < 0x100000000 then .ok value.toNat
  else .error (.totalOutOfRange total value)

def Totals.advanceColumn (totals : Totals) (line : Nat) (started : Bool) (delta : Int) :
    Except Malformation (Nat × Totals) := do
  let column := totals.column + delta
  if started ∧ column ≤ totals.column then
    .error (.columnNotIncreasing column line)
  else
    return (← inRange .generatedColumn column, { totals with column })

/-- Moves the totals of a place in a source. The name is checked before the place. -/
def Totals.advanceOrigin (totals : Totals) (source line column : Int) (name : Option Int) :
    Except Malformation (Location × Totals) := do
  let moved : Totals :=
    { totals with
      source := totals.source + source
      sourceLine := totals.sourceLine + line
      sourceColumn := totals.sourceColumn + column
      name := totals.name + name.getD 0 }
  let nameIndex ← match name with
    | none => pure none
    | some _ => some <$> inRange .name moved.name
  let sourceIndex ← inRange .source moved.source
  let sourceLine ← inRange .sourceLine (moved.sourceLine + 1)
  let sourceColumn ← inRange .sourceColumn moved.sourceColumn
  return (⟨sourceIndex, sourceLine, sourceColumn, nameIndex⟩, moved)

/-- One segment of the generated line `line`; `started` says that it is not the first there. -/
def decodeSegment (line : Nat) (started : Bool) (totals : Totals) (written : String) :
    Except Malformation (Segment × Totals) := do
  match ← Vlq.decode written with
  | [delta] =>
      let (column, totals) ← totals.advanceColumn line started delta
      return (⟨⟨line, column⟩, none⟩, totals)
  | [delta, source, sourceLine, sourceColumn] =>
      let (column, totals) ← totals.advanceColumn line started delta
      let (location, totals) ← totals.advanceOrigin source sourceLine sourceColumn none
      return (⟨⟨line, column⟩, some location⟩, totals)
  | [delta, source, sourceLine, sourceColumn, name] =>
      let (column, totals) ← totals.advanceColumn line started delta
      let (location, totals) ← totals.advanceOrigin source sourceLine sourceColumn (some name)
      return (⟨⟨line, column⟩, some location⟩, totals)
  | values => .error (.fieldCount written values.length)

def decodeSegments (line : Nat) (started : Bool) (totals : Totals) :
    List String → Except Malformation (List Segment × Totals)
  | [] => .ok ([], totals)
  | written :: rest => do
      let (segment, totals) ← decodeSegment line started totals written
      let (segments, totals) ← decodeSegments line true totals rest
      return (segment :: segments, totals)

/-- The segments of one line as they are written. Empty pieces are no segments. -/
def pieces (line : List Char) : List String :=
  ((line.splitOn ',').filter fun piece => !piece.isEmpty).map String.ofList

def decodeLines (line : Nat) (totals : Totals) :
    List (List Char) → Except Malformation (List Segment)
  | [] => .ok []
  | written :: rest => do
      let number ← inRange .generatedLine line
      let (segments, totals) ← decodeSegments number false totals.startLine (pieces written)
      return segments ++ (← decodeLines (line + 1) totals rest)

def decode (text : String) : Except Malformation (List Segment) :=
  decodeLines 1 {} (text.toList.splitOn ';')

/-! ### Writing -/

def Totals.deltas (totals : Totals) (segment : Segment) : List Int :=
  (segment.position.column - totals.column) ::
    match segment.origin with
    | none => []
    | some location =>
        (location.source - totals.source) ::
        (location.line - 1 - totals.sourceLine) ::
        (location.column - totals.sourceColumn) ::
        match location.name with
        | none => []
        | some name => [name - totals.name]

def Totals.moveTo (totals : Totals) (segment : Segment) : Totals :=
  match segment.origin with
  | none => { totals with column := segment.position.column }
  | some location =>
      { column := segment.position.column
        source := location.source
        sourceLine := location.line - 1
        sourceColumn := location.column
        name := (location.name.map Int.ofNat).getD totals.name }

/-- The text from the line `line` on, of which `started` says whether a segment
has been written there. A segment before that line is written where it stands. -/
def encodeFrom (line : Nat) (started : Bool) (totals : Totals) : List Segment → List Char
  | [] => []
  | segment :: rest =>
      let skipped := segment.position.line - line
      let sameLine := skipped = 0
      let totals := if sameLine then totals else totals.startLine
      List.replicate skipped ';' ++
        (if started ∧ sameLine then [','] else []) ++
        Vlq.encodeAll (totals.deltas segment) ++
        encodeFrom (line + skipped) true (totals.moveTo segment) rest

def encode (segments : List Segment) : String :=
  String.ofList (encodeFrom 1 false {} segments)

end SourceWeave.Mappings
