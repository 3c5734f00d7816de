import SourceWeave.Mapping.Cleanup
import SourceWeave.Text.Indexed

/-!
Tracing a mapping further. When the text that an outer mapping points into has a
mapping of its own, every segment into that text is looked up there and sent on
to where the inner mapping says it comes from.
-/

set_option autoImplicit false

namespace SourceWeave

/-- A text between the generated one and its sources. With `removed`, places of
it that its mapping does not trace are forgotten, and so is the text as a source. -/
structure Intermediate where
  identity : String
  text : String
  mapping : Mapping
  removed : Bool
deriving Repr

namespace SourceRegistry

def addKnown (table : SourceRegistry) :
    List (Option SourceRecord) → Except MappingError (List (Option Nat) × SourceRegistry)
  | [] => .ok ([], table)
  | none :: rest => do
      let (indices, table) ← table.addKnown rest
      return (none :: indices, table)
  | some entry :: rest => do
      let (index, table) ← table.addRecord entry
      let (indices, table) ← table.addKnown rest
      return (some index :: indices, table)

end SourceRegistry

structure Passage where
  outer : Mapping
  inner : Mapping
  target : Nat
  links : Array (Option Nat)
  contents : Array (Option IndexedText)
deriving Repr

structure Passage.Tables where
  sources : SourceRegistry
  names : NameRegistry := {}
deriving Repr

namespace Passage

def outerName? (passage : Passage) (location : Location) : Option String :=
  location.name.bind (passage.outer.names[·]?)

def keep (passage : Passage) (tables : Tables) (location : Location) :
    Option Location × Tables :=
  match passage.links[location.source]?.join with
  | none => (none, tables)
  | some source =>
      let (name, names) := tables.names.add? (passage.outerName? location)
      (some { location with source, name }, { tables with names })

def hit? (passage : Passage) (place : Position) : Option (Segment × Location × SourceRecord) := do
  let segment ← passage.inner.covering place
  let location ← segment.origin
  let entry ← passage.inner.sources[location.source]?
  return (segment, location, entry)

/-- The inner name holds where the inner segment starts. Elsewhere the outer name
holds if the content of the source has it at the traced place. -/
def name? (passage : Passage) (location found : Location) (exact : Bool) (column : Nat) :
    Option String :=
  match exact, found.name.bind (passage.inner.names[·]?) with
  | true, some name => some name
  | _, _ =>
      (passage.outerName? location).filter fun name =>
        (passage.contents[found.source]?.join).any (·.standsAt name found.line column)

def sendOn (passage : Passage) (tables : Tables) (location : Location) :
    Except MappingError (Option Location × Tables) := do
  match passage.hit? ⟨location.line, location.column⟩ with
  | none => return passage.keep tables location
  | some (segment, found, entry) =>
      let column := found.column + (location.column - segment.position.column)
      let exact := segment.position.column = location.column
      let (source, sources) ← tables.sources.addRecord entry
      let (name, names) :=
        tables.names.add? (passage.name? location found exact column)
      return (some ⟨source, found.line, column, name⟩, { sources, names })

def redirect (passage : Passage) (tables : Tables) (segment : Segment) :
    Except MappingError (Segment × Tables) := do
  match segment.origin with
  | none => return (segment, tables)
  | some location =>
      let (origin, tables) ←
        if location.source = passage.target then passage.sendOn tables location
        else pure (passage.keep tables location)
      return ({ segment with origin }, tables)

def redirectAll (passage : Passage) (tables : Tables) :
    List Segment → Except MappingError (List Segment × Tables)
  | [] => .ok ([], tables)
  | segment :: rest => do
      let (segment, tables) ← passage.redirect tables segment
      let (segments, tables) ← passage.redirectAll tables rest
      return (segment :: segments, tables)

end Passage

def Intermediate.outerEntries (intermediate : Intermediate) (outer : Mapping) (target : Nat) :
    List (Option SourceRecord) :=
  outer.sources.toList.mapIdx fun index entry =>
    if index ≠ target then some entry
    else if intermediate.removed then none
    else some ⟨some intermediate.identity, some intermediate.text⟩

/-- The outer mapping traced through the intermediate text, which is the first
source of that identity. A mapping without such a source stays as it is. `stop`
is the end of the generated text. -/
def Mapping.through (outer : Mapping) (intermediate : Intermediate) (stop : Position) :
    Except MappingError Mapping := do
  match outer.sources.findIdx? fun entry => entry.identity == some intermediate.identity with
  | none => return outer
  | some target =>
      let (links, sources) ←
        SourceRegistry.addKnown {} (intermediate.outerEntries outer target)
      let passage : Passage :=
        { outer
          inner := intermediate.mapping
          target
          links := links.toArray
          contents := intermediate.mapping.sources.map fun entry =>
            entry.content.map IndexedText.ofString }
      let (segments, tables) ← passage.redirectAll { sources } outer.segments.toList
      let mapping ←
        ofSegments (Segment.prune stop segments) tables.sources.entries tables.names.names
      return { mapping with file := outer.file }

end SourceWeave
