import SourceWeave.Mapping.Cleanup
import SourceWeave.TracedText
import SourceWeave.Text.Indexed

/-!
Putting a text and its mapping together, piece by piece, from woven children.
Every copy contributes the segments of its child's mapping that lie inside the copied
range, moved to where the copy lands, and a marker behind it; the tables of all
copied children become one.
-/

set_option autoImplicit false

namespace SourceWeave

inductive Links
  | unknown
  | own (source : Nat)
  | mapped (mapping : Mapping) (sources names : Array Nat)
deriving Repr

def Links.isTracked : Links → Bool
  | .unknown => false
  | _ => true

def Location.relink (sources names : Array Nat) (location : Location) : Option Location := do
  let source ← sources[location.source]?
  return { location with source, name := location.name.bind (names[·]?) }

/-- What is known of the first place of a copy. If its segment starts earlier, the
origin is moved on by the distance and the name is lost. -/
def Mapping.headOrigin (mapping : Mapping) (sources names : Array Nat) (start : Position) :
    Option Location := do
  let segment ← mapping.covering start
  let location ← segment.origin.bind (Location.relink sources names)
  if segment.position.column = start.column then return location
  else
    return { location with
      column := location.column + (start.column - segment.position.column)
      name := none }

/-- The segments of a mapping from `start` to before `stop`, moved so that `start`
lands on `target`, where a segment always stands. -/
def Mapping.excerpt (mapping : Mapping) (sources names : Array Nat)
    (start stop target : Position) : List Segment :=
  let inside := (mapping.segments.extract
    (mapping.countBefore start) (mapping.countBefore stop)).toList
  ⟨target, mapping.headOrigin sources names start⟩ ::
    (inside.filter fun segment => segment.position ≠ start).map fun segment =>
      ⟨segment.position.relocate start target,
        segment.origin.bind (Location.relink sources names)⟩

/-- The segments of a text that is a source of its own: one where the copy starts
and one at the start of every further line that is not empty of the copy. -/
def ownSegments (source : Nat) (start stop target : Position) : List Segment :=
  let further := (List.range (stop.line - start.line)).map fun count =>
    (⟨start.line + 1 + count, 0⟩ : Position)
  Segment.traced target source start.line start.column ::
    (further.filter fun place => place < stop).map fun place =>
      Segment.traced (place.relocate start target) source place.line 0

def Links.segments (links : Links) (start stop target : Position) : List Segment :=
  match links with
  | .unknown => [Segment.marker target]
  | .own source => ownSegments source start stop target
  | .mapped mapping sources names => mapping.excerpt sources names start stop target

/-! ### Piece by piece -/

structure Strand where
  text : IndexedText
  provenance : Provenance
deriving Repr

def Strand.ofTracedText (traced : TracedText) : Strand :=
  ⟨IndexedText.ofString traced.text, traced.provenance⟩

structure Assembly where
  output : IndexedText := IndexedText.empty
  sources : SourceRegistry := {}
  names : NameRegistry := {}
  links : Array (Option Links)
  segments : Array Segment := #[]
deriving Repr

namespace Assembly

def enter (assembly : Assembly) (child : Strand) : Except MappingError (Links × Assembly) :=
  match child.provenance with
  | .unknown => .ok (.unknown, assembly)
  | .own identity => do
      let (source, sources) ← assembly.sources.add (some identity) (some child.text.text)
      return (.own source, { assembly with sources })
  | .mapped mapping => do
      let (sourceIndices, sources) ← assembly.sources.addAll mapping.sources.toList
      let (nameIndices, names) := assembly.names.addAll mapping.names.toList
      return (.mapped mapping sourceIndices.toArray nameIndices.toArray,
        { assembly with sources, names })

/-- The links of a child, whose tables enter the common ones when it is first copied. -/
def link (assembly : Assembly) (index : Nat) (child : Strand) :
    Except MappingError (Links × Assembly) :=
  match assembly.links[index]?.join with
  | some links => .ok (links, assembly)
  | none => do
      let (links, assembly) ← assembly.enter child
      return (links, { assembly with links := assembly.links.setIfInBounds index (some links) })

def append (assembly : Assembly) (text : String) (segments : List Segment) : Assembly :=
  { assembly with
    output := assembly.output.append text
    segments := assembly.segments ++ segments }

def copy (withMap : Bool) (children : Array Strand) (assembly : Assembly) (index start stop : Nat) :
    Except MappingError Assembly := do
  match children[index]? with
  | none => .error (.outOfRange .child index (children.size - 1))
  | some child =>
      if withMap then
        let (links, assembly) ← assembly.link index child
        let text ← child.text.slice start stop
        if start = stop then
          return assembly.append text []
        else
          let first ← child.text.positionAt start
          let last ← child.text.positionAt stop
          let target := assembly.output.endPosition
          let copied := assembly.append text (links.segments first last target)
          return copied.append "" [Segment.marker copied.output.endPosition]
      else
        return assembly.append (← child.text.slice start stop) []

def insert (withMap : Bool) (assembly : Assembly) (text : String) (marked : Bool) : Assembly :=
  assembly.append text <|
    if withMap ∧ marked ∧ text ≠ "" then [Segment.marker assembly.output.endPosition] else []

def step (withMap : Bool) (children : Array Strand) (assembly : Assembly) :
    Piece → Except MappingError Assembly
  | .copy child start stop => assembly.copy withMap children child start stop
  | .insert text marked => .ok (assembly.insert withMap text marked)

def isTracked (assembly : Assembly) : Bool :=
  assembly.links.any fun links => links.any Links.isTracked

def mapping (assembly : Assembly) : Except MappingError Mapping :=
  Mapping.ofSegments
    (Segment.prune assembly.output.endPosition (Segment.latest assembly.segments.toList))
    assembly.sources.entries assembly.names.names

end Assembly

/-- Takes the pieces from the first to the last. Without `withMap` only the text is
put together, and nothing enters the tables. -/
def assemble (children : List TracedText) (pieces : List Piece) (withMap : Bool) :
    Except MappingError TracedText := do
  let children := (children.map Strand.ofTracedText).toArray
  let assembly ← pieces.foldlM (Assembly.step withMap children)
    { links := Array.replicate children.size none }
  if assembly.isTracked then
    return ⟨assembly.output.text, .mapped (← assembly.mapping)⟩
  else
    return ⟨assembly.output.text, .unknown⟩

end SourceWeave
