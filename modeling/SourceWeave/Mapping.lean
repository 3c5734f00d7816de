import SourceWeave.Mappings
import SourceWeave.PartitionPoint
import SourceWeave.Registry

/-!
A mapping: segments in order, and the tables of sources and names that they
point into. An index may point past its table; what it would name is then
unknown. Look-ups halve their way through the segments.
-/

set_option autoImplicit false

namespace SourceWeave

structure Mapping where
  segments : Array Segment := #[]
  sources : Array SourceRecord := #[]
  names : Array String := #[]
  file : Option String := none
  sourceRoot : Option String := none
  ordered : Segment.Ordered segments.toList
  numbered : ∀ segment ∈ segments.toList, segment.position.line ≠ 0
deriving DecidableEq, Repr

namespace Mapping

/-- Segments must increase, and lines count from one. Of the two faults, the first
pair out of order is reported first. -/
def ofSegments (segments : List Segment) (sources : Array SourceRecord) (names : Array String) :
    Except MappingError Mapping :=
  match inOrder : Segment.firstDisorder? segments with
  | some (earlier, later) => .error (.malformed (.disorder earlier.position later.position))
  | none =>
      match fromOne : segments.find? (fun segment => segment.position.line == 0) with
      | some segment => .error (.malformed (.lineZero segment.position.column))
      | none =>
          .ok
            { segments := segments.toArray
              sources
              names
              ordered := Segment.ordered_of_firstDisorder?_eq_none segments inOrder
              numbered := by simpa using List.find?_eq_none.mp fromOne }

/-- A root and an identity with one slash between them. A slash that ends the root is that one. -/
def underRoot (root identity : String) : String :=
  if root.toList.getLast? = some '/' then root ++ identity else root ++ "/" ++ identity

/-- Puts the root in front of every named source and forgets it. An empty root adds nothing. -/
def rooted (mapping : Mapping) : Mapping :=
  match mapping.sourceRoot with
  | none => mapping
  | some "" => { mapping with sourceRoot := none }
  | some root =>
      { mapping with
        sourceRoot := none
        sources := mapping.sources.map fun entry =>
          { entry with identity := entry.identity.map (underRoot root) } }

def encode (mapping : Mapping) : String :=
  Mappings.encode mapping.segments.toList

/-! ### Looking up -/

def lineSegments (mapping : Mapping) (line : Nat) : Array Segment :=
  mapping.segments.extract
    (partitionPoint (fun segment => decide (segment.position.line < line)) mapping.segments)
    (partitionPoint (fun segment => decide (segment.position.line ≤ line)) mapping.segments)

def covering (mapping : Mapping) (place : Position) : Option Segment :=
  let onLine := mapping.lineSegments place.line
  match partitionPoint (fun segment => decide (segment.position.column ≤ place.column)) onLine with
  | 0 => none
  | count + 1 => onLine[count]?

def countBefore (mapping : Mapping) (place : Position) : Nat :=
  partitionPoint (fun segment => decide (segment.position < place)) mapping.segments

structure Trace where
  identity : Option String
  line : Nat
  column : Nat
deriving DecidableEq, Repr

/-- Where a generated place comes from: the origin of the segment that covers it,
moved on by the distance. Nothing is known behind a marker, before the first
segment of a line, or when the source is missing from the table. -/
def trace? (mapping : Mapping) (place : Position) : Option Trace := do
  let segment ← mapping.covering place
  let location ← segment.origin
  let entry ← mapping.sources[location.source]?
  return ⟨entry.identity, location.line, location.column + (place.column - segment.position.column)⟩

end Mapping

end SourceWeave
