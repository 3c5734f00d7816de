import SourceWeave.InnerMap
import SourceWeave.SourceTree

/-!
The mappings of leaves: an authored file is traced to itself line by line, and a
mapped text by the map it came with, sent on through its inner text.
-/

set_option autoImplicit false

namespace SourceWeave

def authoredSegments (text : String) : List Segment :=
  (text.toList.splitOn '\n').zipIdx.filterMap fun (line, index) =>
    if line.isEmpty then none
    else some (Segment.traced ⟨index + 1, 0⟩ 0 (index + 1) 0)

def authoredMapping (text identity : String) : Except MappingError Mapping :=
  Mapping.ofSegments (authoredSegments text) #[⟨some identity, some text⟩] #[]

def WireMap.describing (wire : WireMap) (text : String) : Except MappingError Mapping := do
  (← wire.decode).cutTo (IndexedText.ofString text).endPosition

namespace MappedText

/-- The inner text is looked through only if it has a map. -/
def mapping (leaf : MappedText) : Except MappingError Mapping := do
  let outer ← leaf.map.describing leaf.text
  match leaf.inner with
  | none => return outer
  | some inner =>
      match inner.map with
      | none => return outer
      | some innerMap =>
          let intermediate : Intermediate :=
            { identity := leaf.identity
              text := inner.text
              mapping := ← innerMap.describing inner.text
              removed := inner.removed }
          outer.through intermediate (IndexedText.ofString leaf.text).endPosition

end MappedText

namespace SourceTree

/-- The mapping of a leaf that has one, its file kept. -/
def leafMapping? : SourceTree → Option (Except MappingError Mapping)
  | .authored text identity => some (authoredMapping text identity)
  | .mapped leaf => some leaf.mapping
  | _ => none

end SourceTree

end SourceWeave
