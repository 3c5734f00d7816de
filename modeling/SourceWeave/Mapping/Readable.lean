import SourceWeave.Mapping

/-!
Mappings written for a reader, one line per generated line that has segments.
-/

set_option autoImplicit false

namespace SourceWeave.Mapping

/-- Where a segment comes from; nothing for a marker. A source without a known
identity is written as null. -/
def readableOrigin (mapping : Mapping) (segment : Segment) : String :=
  match segment.origin with
  | none => ""
  | some location =>
      let identity := (mapping.sources[location.source]?.bind (·.identity)).getD "null"
      let name := match location.name.bind (mapping.names[·]?) with
        | none => ""
        | some name => s!" ({name})"
      s!" -> [{identity}] {location.line}:{location.column}{name}"

def readableFrom (mapping : Mapping) (line : Nat) : List Segment → String
  | [] => ""
  | segment :: rest =>
      let place := segment.position
      let lead :=
        if place.line = line then s!", :{place.column}" else s!"\n{place.line}:{place.column}"
      lead ++ mapping.readableOrigin segment ++ mapping.readableFrom place.line rest

def readable (mapping : Mapping) : String :=
  match mapping.segments.toList with
  | [] => ""
  | segment :: rest =>
      let place := segment.position
      s!"{place.line}:{place.column}" ++ mapping.readableOrigin segment ++
        mapping.readableFrom place.line rest

end SourceWeave.Mapping
