import SourceWeave.Mapping

/-!
Bringing segments into their shortest form without changing what they say of
any place: one segment per place, no marker without effect, no index that
points past its table. Collapsing to lines is the one step that forgets.
-/

set_option autoImplicit false

namespace SourceWeave

namespace Segment

def keepLast : List Segment → List Segment
  | earlier :: later :: rest =>
      if earlier.position = later.position then keepLast (later :: rest)
      else earlier :: keepLast (later :: rest)
  | segments => segments

/-- Sorts by place. Where several segments share a place, the last one given wins. -/
def latest (segments : List Segment) : List Segment :=
  keepLast (stableSort (fun left right => decide (left.position ≤ right.position)) segments)

/-- A marker has an effect only if the segment before it on its line is traced.
`covered` is the line of that segment; markers at or past `stop` say nothing. -/
def pruneFrom (stop : Position) (covered : Option Nat) : List Segment → List Segment
  | [] => []
  | segment :: rest =>
      let line := segment.position.line
      if !segment.isMarker then
        segment :: pruneFrom stop (some line) rest
      else if covered ≠ some line then
        pruneFrom stop none rest
      else if segment.position < stop then
        segment :: pruneFrom stop none rest
      else
        pruneFrom stop covered rest

def prune (stop : Position) (segments : List Segment) : List Segment :=
  pruneFrom stop none segments

/-- An unknown source makes a segment a marker, and an unknown name is left out. -/
def confined (sourceCount nameCount : Nat) (segment : Segment) : Segment :=
  { segment with
    origin := (segment.origin.filter fun location => location.source < sourceCount).map
      fun location => { location with name := location.name.filter (· < nameCount) } }

/-- The first traced segment of every line, moved to the start of its line and of
its source line, without its name. `held` is the line that already has one. -/
def firstTracedFrom (held : Option Nat) : List Segment → List Segment
  | [] => []
  | segment :: rest =>
      let line := segment.position.line
      match segment.origin with
      | none => firstTracedFrom held rest
      | some location =>
          if held = some line then firstTracedFrom held rest
          else
            traced ⟨line, 0⟩ location.source location.line 0 :: firstTracedFrom (some line) rest

end Segment

namespace Mapping

def withSegments (mapping : Mapping) (segments : List Segment) : Except MappingError Mapping := do
  let replaced ← ofSegments segments mapping.sources mapping.names
  return { replaced with file := mapping.file, sourceRoot := mapping.sourceRoot }

def confined (mapping : Mapping) : Except MappingError Mapping :=
  mapping.withSegments
    (mapping.segments.toList.map (Segment.confined mapping.sources.size mapping.names.size))

def byLine (mapping : Mapping) : Except MappingError Mapping :=
  mapping.withSegments (Segment.firstTracedFrom none mapping.segments.toList)

/-- The mapping as it describes a text that ends at `stop`: indices checked, root
applied, and nothing said of places at or past the end. -/
def cutTo (mapping : Mapping) (stop : Position) : Except MappingError Mapping := do
  let mapping := (← mapping.confined).rooted
  mapping.withSegments
    (Segment.prune stop (mapping.segments.toList.take (mapping.countBefore stop)))

end Mapping

end SourceWeave
