import SourceWeave.Hash.Digest
import SourceWeave.SourceTree

/-!
What mappings and trees are hashed as. A tree is fed from its root downwards,
every node as its kind and what it was built from, before any child and without
being woven.
-/

set_option autoImplicit false

namespace SourceWeave

/-- The segments and both tables. File and source root are no part of it. -/
def Mapping.feed (mapping : Mapping) (rest : List UInt8) : List UInt8 :=
  let entry (entry : SourceRecord) (rest : List UInt8) :=
    Feed.optional Feed.text entry.identity (Feed.optional Feed.text entry.content rest)
  Feed.text mapping.encode <|
    Feed.counted entry mapping.sources.toList <|
      Feed.counted Feed.text mapping.names.toList rest

def WireMap.feed (wire : WireMap) (rest : List UInt8) : List UInt8 :=
  Feed.word wire.version.toNat <|
    Feed.optional Feed.text wire.file <|
      Feed.optional Feed.text wire.sourceRoot <|
        Feed.counted (Feed.optional Feed.text) wire.sources <|
          Feed.optional (Feed.counted (Feed.optional Feed.text)) wire.sourcesContent <|
            Feed.counted Feed.text wire.names <|
              Feed.text wire.mappings rest

def InnerText.feed (inner : InnerText) (rest : List UInt8) : List UInt8 :=
  Feed.text inner.text <|
    Feed.flag inner.removed <|
      Feed.optional WireMap.feed inner.map rest

def MappedText.feed (leaf : MappedText) (rest : List UInt8) : List UInt8 :=
  Feed.text leaf.text <|
    Feed.text leaf.identity <|
      leaf.map.feed <|
        Feed.optional InnerText.feed leaf.inner rest

def Edit.feed (edit : Edit) (rest : List UInt8) : List UInt8 :=
  Feed.word edit.start (Feed.word edit.stop (Feed.text edit.replacement rest))

namespace SourceTree

mutual

def feedContents : SourceTree → List UInt8 → List UInt8
  | .plain text identity, rest => Feed.text text (Feed.optional Feed.text identity rest)
  | .authored text identity, rest => Feed.text text (Feed.text identity rest)
  | .mapped leaf, rest => leaf.feed rest
  | .joined children, rest => Feed.word children.length (feedAll children rest)
  | .edited child edits, rest =>
      Feed.counted Edit.feed edits.edits (Feed.text child.kind (feedContents child rest))

def feedAll : List SourceTree → List UInt8 → List UInt8
  | [], rest => rest
  | tree :: trees, rest => Feed.text tree.kind (feedContents tree (feedAll trees rest))

end

def feed (tree : SourceTree) (rest : List UInt8) : List UInt8 :=
  Feed.text tree.kind (tree.feedContents rest)

def contentHash (tree : SourceTree) : ContentHash :=
  .ofFeed (tree.feed [])

end SourceTree

end SourceWeave
