import SourceWeave.Json.Record
import SourceWeave.Mapping

/-!
Source maps as they are exchanged, in the third revision of their format: the
tables as parallel lists, the segments as a mappings text, all of it one JSON
record.
-/

set_option autoImplicit false

namespace SourceWeave

structure WireMap where
  version : UInt32 := 3
  file : Option String := none
  sourceRoot : Option String := none
  sources : List (Option String) := []
  sourcesContent : Option (List (Option String)) := none
  names : List String := []
  mappings : String
deriving DecidableEq, Repr

/-! ### Decoding -/

namespace WireMap

/-- The source table. A source without an identity gets no content. -/
def entries (wire : WireMap) : List SourceRecord :=
  let contents := wire.sourcesContent.getD (wire.sources.map fun _ => none)
  wire.sources.zipWith
    (fun identity content => ⟨identity, if identity.isSome then content else none⟩) contents

/-- The version is checked first, then the length of the lists, then the segments. -/
def decode (wire : WireMap) : Except MappingError Mapping := do
  if wire.version ≠ 3 then
    .error (.unsupportedVersion wire.version.toNat)
  match wire.sourcesContent with
  | some contents =>
      if contents.length ≠ wire.sources.length then
        .error (.malformed (.contentCount contents.length wire.sources.length))
  | none => pure ()
  let segments ← (Mappings.decode wire.mappings).mapError .malformed
  let mapping ← Mapping.ofSegments segments wire.entries.toArray wire.names.toArray
  return { mapping with file := wire.file, sourceRoot := wire.sourceRoot }

end WireMap

/-- Contents are written only if one of them is known. -/
def Mapping.toWire (mapping : Mapping) : WireMap :=
  let entries := mapping.sources.toList
  { file := mapping.file
    sourceRoot := mapping.sourceRoot
    sources := entries.map (·.identity)
    sourcesContent :=
      if entries.any (·.content.isSome) then some (entries.map (·.content)) else none
    names := mapping.names.toList
    mappings := mapping.encode }

/-! ### JSON -/

namespace WireMap

def fieldNames : List String :=
  ["version", "file", "sourceRoot", "sources", "sourcesContent", "names", "mappings"]

def ofJson? (value : Json) : Option WireMap := do
  match ← value.fields? fieldNames with
  | [version, file, sourceRoot, sources, sourcesContent, names, mappings] =>
      return {
        version := UInt32.ofNat (← Json.required Json.word? version)
        file := ← Json.optionalField Json.text? file
        sourceRoot := ← Json.optionalField Json.text? sourceRoot
        sources := ← Json.withDefault [] (Json.list? (Json.nullable Json.text?)) sources
        sourcesContent :=
          ← Json.optionalField (Json.list? (Json.nullable Json.text?)) sourcesContent
        names := ← Json.withDefault [] (Json.list? Json.text?) names
        mappings := ← Json.required Json.text? mappings }
  | _ => none

def memberIfKnown {α : Type} (name : String) (write : α → Json) :
    Option α → List (String × Json)
  | none => []
  | some value => [(name, write value)]

def toJson (wire : WireMap) : Json :=
  let nullableTexts (texts : List (Option String)) : Json :=
    .array (texts.map (Json.optional Json.text))
  .record <|
    [("version", Json.natural wire.version.toNat)] ++
    memberIfKnown "file" Json.text wire.file ++
    memberIfKnown "sourceRoot" Json.text wire.sourceRoot ++
    [("sources", nullableTexts wire.sources)] ++
    memberIfKnown "sourcesContent" nullableTexts wire.sourcesContent ++
    [("names", .array (wire.names.map Json.text)), ("mappings", .text wire.mappings)]

def read? (text : String) : Option WireMap :=
  Json.read text >>= ofJson?

def render (wire : WireMap) : String :=
  wire.toJson.render

end WireMap

end SourceWeave
