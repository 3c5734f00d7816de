import SourceWeave.Hash.Digest
import SourceWeave.Json.Record
import SourceWeave.Segment
import SourceWeave.Registry

/-!
The small values of the library as JSON. Every number is one of thirty-two bits,
except for the bytes of a hash; a field without a value is written as null.
-/

set_option autoImplicit false

namespace SourceWeave

namespace Position

def ofJson? (value : Json) : Option Position := do
  match ← value.fields? ["line", "column"] with
  | [line, column] =>
      return ⟨← Json.required Json.word? line, ← Json.required Json.word? column⟩
  | _ => none

def toJson (position : Position) : Json :=
  .record [("line", .natural position.line), ("column", .natural position.column)]

end Position

namespace Location

def ofJson? (value : Json) : Option Location := do
  match ← value.fields? ["source", "line", "column", "name"] with
  | [source, line, column, name] =>
      return {
        source := ← Json.required Json.word? source
        line := ← Json.required Json.word? line
        column := ← Json.required Json.word? column
        name := ← Json.optionalField Json.word? name }
  | _ => none

def toJson (location : Location) : Json :=
  .record
    [("source", .natural location.source), ("line", .natural location.line),
      ("column", .natural location.column), ("name", .optional Json.natural location.name)]

end Location

namespace Segment

def ofJson? (value : Json) : Option Segment := do
  match ← value.fields? ["generated_line", "generated_column", "original"] with
  | [line, column, origin] =>
      return {
        position := ⟨← Json.required Json.word? line, ← Json.required Json.word? column⟩
        origin := ← Json.optionalField Location.ofJson? origin }
  | _ => none

def toJson (segment : Segment) : Json :=
  .record
    [("generated_line", .natural segment.position.line),
      ("generated_column", .natural segment.position.column),
      ("original", .optional Location.toJson segment.origin)]

end Segment

namespace SourceRecord

def ofJson? (value : Json) : Option SourceRecord := do
  match ← value.fields? ["identity", "content"] with
  | [identity, content] =>
      return ⟨← Json.optionalField Json.text? identity, ← Json.optionalField Json.text? content⟩
  | _ => none

def toJson (entry : SourceRecord) : Json :=
  .record
    [("identity", .optional Json.text entry.identity),
      ("content", .optional Json.text entry.content)]

end SourceRecord

namespace ContentHash

def byte? (value : Json) : Option UInt8 :=
  match value with
  | .number (some natural) => if natural < 256 then some (UInt8.ofNat natural) else none
  | _ => none

def ofJson? (value : Json) : Option ContentHash := do
  let bytes ← Json.list? byte? value
  if size : bytes.toArray.size = 16 then return ⟨bytes.toArray, size⟩ else none

def toJson (digest : ContentHash) : Json :=
  .array (digest.bytes.toList.map fun byte => .natural byte.toNat)

end ContentHash

end SourceWeave
