import SourceWeave.SourceTree.Weave

/-!
A worked example: an English text put together from two files and a trailer,
rendered in German, and traced back through the English text to the files.
-/

set_option autoImplicit false

namespace SourceWeave

def WireMap.ofSegments (file : Option String) (segments : List Segment)
    (sources : List SourceRecord) (names : List String) : Except MappingError WireMap := do
  let mapping ← Mapping.ofSegments segments sources.toArray names.toArray
  return { mapping with file }.toWire

namespace Scenario

def greeting : String := "Hello World\nis a test string\n"

def english : SourceTree :=
  .join
    [.authored greeting "hello-world.txt", .authored "Translate: " "header.txt",
      .plain "Other text" none]

def germanText : String := "Translated: Hallo Welt\nist ein test Text\nAnderer Text"

def germanMap : Except MappingError WireMap :=
  WireMap.ofSegments (some "translated.txt")
    [(Segment.traced ⟨1, 12⟩ 0 1 0).named 0,
      Segment.marker ⟨1, 17⟩,
      (Segment.traced ⟨1, 18⟩ 0 1 6).named 1,
      (Segment.traced ⟨2, 0⟩ 0 2 0).named 2,
      Segment.marker ⟨2, 7⟩,
      Segment.traced ⟨2, 13⟩ 0 2 10,
      Segment.traced ⟨3, 0⟩ 0 3 11,
      Segment.marker ⟨3, 7⟩,
      Segment.traced ⟨3, 8⟩ 0 3 17]
    [⟨some "text", some greeting⟩]
    ["Hello", "World", "nope"]

def german (removed : Bool) : Except MappingError SourceTree := do
  SourceTree.mappedOver germanText "text" (← germanMap) english removed

end Scenario

end SourceWeave
