import SourceWeave.Error
import SourceWeave.PartitionPoint
import SourceWeave.Text.Utf16

/-!
A text together with the places where its lines start, counted in UTF-16 units
and in bytes. The index grows with the text, piece by piece, and answers where an
offset lies, which offset a place has, and what stands between two offsets.
-/

set_option autoImplicit false

namespace SourceWeave

/-- `units` and `bytes` measure the whole text; both lists of starts begin with
zero and hold one entry per line. -/
structure LineIndex where
  lineStarts : Array Nat := #[0]
  byteStarts : Array Nat := #[0]
  units : Nat := 0
  bytes : Nat := 0
  ascii : Bool := true
deriving DecidableEq, Repr

namespace LineIndex

/-- Notes a start behind every newline among bytes of which each is a unit, where `offset` bytes
have gone before. What the index measures stays. -/
def noteBytes (index : LineIndex) (offset : Nat) : List UInt8 → LineIndex
  | [] => index
  | byte :: rest =>
      let behind := offset + 1
      let noted : LineIndex :=
        if byte = 10 then
          { index with
            lineStarts := index.lineStarts.push (index.units + behind)
            byteStarts := index.byteStarts.push (index.bytes + behind) }
        else index
      noted.noteBytes behind rest

/-- Notes a start behind every newline among characters. Units are counted on the way, bytes
from the first of these characters on, where `offset` of them have gone before. -/
def noteCharacters (index : LineIndex) (offset : Nat) : List Char → LineIndex
  | [] => index
  | character :: rest =>
      let units := index.units + Utf16.width character
      let noted : LineIndex :=
        if character = '\n' then
          { index with
            units
            lineStarts := index.lineStarts.push units
            byteStarts := index.byteStarts.push (index.bytes + offset + 1) }
        else { index with units }
      noted.noteCharacters (offset + character.utf8Size) rest

/-- The index with a text behind what it measures. An ASCII text is gone through by its bytes. -/
def append (index : LineIndex) (text : String) : LineIndex :=
  let noted : LineIndex :=
    if text.toList.all fun character => decide (character.toNat < 128) then
      { index.noteBytes 0 text.toByteArray.data.toList with
        units := index.units + text.utf8ByteSize }
    else { index.noteCharacters 0 text.toList with ascii := false }
  { noted with bytes := index.bytes + text.utf8ByteSize }

end LineIndex

structure IndexedText where
  text : String := ""
  index : LineIndex := {}
deriving DecidableEq, Repr

namespace IndexedText

def empty : IndexedText := {}

def append (whole : IndexedText) (piece : String) : IndexedText :=
  { text := whole.text ++ piece
    index := whole.index.append piece }

def ofString (text : String) : IndexedText :=
  empty.append text

def length (whole : IndexedText) : Nat :=
  whole.index.units

def lineCount (whole : IndexedText) : Nat :=
  whole.index.lineStarts.size

def startOf (whole : IndexedText) (lineIndex : Nat) : Nat :=
  whole.index.lineStarts[lineIndex]?.getD 0

def byteStartOf (whole : IndexedText) (lineIndex : Nat) : Nat :=
  whole.index.byteStarts[lineIndex]?.getD whole.index.bytes

def endPosition (whole : IndexedText) : Position :=
  ⟨whole.lineCount, whole.length - whole.startOf (whole.lineCount - 1)⟩

def checkOffset (whole : IndexedText) (offset : Nat) : Except MappingError Unit :=
  if whole.length < offset then .error (.outOfRange .offset offset whole.length) else .ok ()

def lineIndexAt (whole : IndexedText) (offset : Nat) : Nat :=
  partitionPoint (fun start => decide (start ≤ offset)) whole.index.lineStarts - 1

def positionAt (whole : IndexedText) (offset : Nat) : Except MappingError Position := do
  whole.checkOffset offset
  let lineIndex := whole.lineIndexAt offset
  return ⟨lineIndex + 1, offset - whole.startOf lineIndex⟩

def lineLength (whole : IndexedText) (line : Nat) : Except MappingError Nat :=
  if line = 0 ∨ whole.lineCount < line then
    .error (.outOfRange .line line whole.lineCount)
  else
    let stop := match whole.index.lineStarts[line]? with
      | some next => next - 1
      | none => whole.length
    .ok (stop - whole.startOf (line - 1))

def offsetAt (whole : IndexedText) (line column : Nat) : Except MappingError Nat := do
  let length ← whole.lineLength line
  if length < column then .error (.outOfRange .column column length)
  else return whole.startOf (line - 1) + column

def bytesBetween (whole : IndexedText) (start stop : Nat) : String :=
  String.Pos.Raw.extract whole.text ⟨start⟩ ⟨stop⟩

/-- The bytes in front of an offset. In an ASCII text they are as many as its
units; otherwise only the offset's own line is looked at. -/
def byteOffset (whole : IndexedText) (offset : Nat) : Except MappingError Nat := do
  whole.checkOffset offset
  if whole.index.ascii then
    return offset
  else
    let lineIndex := whole.lineIndexAt offset
    let start := whole.byteStartOf lineIndex
    let line := whole.bytesBetween start (whole.byteStartOf (lineIndex + 1))
    return start + Utf16.byteLength (Utf16.take (offset - whole.startOf lineIndex) line.toList)

def slice (whole : IndexedText) (start stop : Nat) : Except MappingError String := do
  if stop < start then
    .error (.outOfRange .offset start stop)
  else
    let first ← whole.byteOffset start
    let last ← whole.byteOffset stop
    return whole.bytesBetween first last

/-- Whether `expected` stands at a place of the text. No place outside it holds anything. -/
def standsAt (whole : IndexedText) (expected : String) (line column : Nat) : Bool :=
  match whole.offsetAt line column >>= whole.byteOffset with
  | .ok byte => expected.toList.isPrefixOf (whole.bytesBetween byte whole.index.bytes).toList
  | .error _ => false

end IndexedText

def utf16Length (text : String) : Nat :=
  Utf16.length text.toList

end SourceWeave
