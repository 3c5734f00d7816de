import SourceWeave.Proofs.Framing
import SourceWeave.Proofs.WireRoundTrip
import SourceWeave.SourceTree.Feed

/-!
What a mapping is hashed as determines its segments and both of its tables, and nothing else of
it. The segments are fed as the text that they are written as, from which they can be read back;
the tables are fed behind the number of their entries, with a byte in front of what may be missing.
-/

set_option autoImplicit false

namespace SourceWeave

open Feed

namespace SourceRecord

structure Addressable (entry : SourceRecord) : Prop where
  identity : ∀ text ∈ entry.identity, Short text
  content : ∀ text ∈ entry.content, Short text

instance : DecidablePred Addressable := fun entry =>
  decidable_of_iff
    ((∀ text ∈ entry.identity, Short text) ∧ ∀ text ∈ entry.content, Short text)
    ⟨fun both => ⟨both.1, both.2⟩, fun addressable => ⟨addressable.identity, addressable.content⟩⟩

theorem feed_framed :
    Framed (fun (entry : SourceRecord) rest =>
      Feed.optional Feed.text entry.identity (Feed.optional Feed.text entry.content rest))
      Addressable := by
  have fields := text_framed.optional.pair text_framed.optional
  refine (fields.comap (fun entry : SourceRecord => (entry.identity, entry.content)) ?_).mono ?_
  · intro left right same
    cases left
    cases right
    simp_all
  · intro entry addressable
    exact ⟨addressable.identity, addressable.content⟩

end SourceRecord

namespace Mapping

/-- Texts and tables of the mapping have lengths that eight bytes can hold. -/
structure Addressable (mapping : Mapping) : Prop where
  segments : Short mapping.encode
  sources : Listed SourceRecord.Addressable mapping.sources.toList
  names : Listed Short mapping.names.toList

def fedParts (mapping : Mapping) : String × List SourceRecord × List String :=
  (mapping.encode, mapping.sources.toList, mapping.names.toList)

theorem fedParts_of_feed {left right : Mapping} (leftFits : left.Addressable)
    (rightFits : right.Addressable) {rest others : List UInt8}
    (same : left.feed rest = right.feed others) :
    left.fedParts = right.fedParts ∧ rest = others := by
  have parts := text_framed.pair (SourceRecord.feed_framed.counted.pair text_framed.counted)
  have leftParts := And.intro leftFits.segments (And.intro leftFits.sources leftFits.names)
  have rightParts := And.intro rightFits.segments (And.intro rightFits.sources rightFits.names)
  exact @parts.separates left.fedParts right.fedParts rest others leftParts rightParts same

theorem feed_of_fedParts {left right : Mapping} (same : left.fedParts = right.fedParts)
    (rest : List UInt8) : left.feed rest = right.feed rest := by
  simp only [fedParts, Prod.mk.injEq] at same
  rw [feed, feed, same.1, same.2.1, same.2.2]

theorem feed_append (mapping : Mapping) (rest : List UInt8) :
    mapping.feed rest = mapping.feed [] ++ rest := by
  have parts := text_framed.pair (SourceRecord.feed_framed.counted.pair text_framed.counted)
  exact parts.append mapping.fedParts rest

/-- The text that segments are written as determines them, since it can be read back. -/
theorem segments_eq_of_encode {left right : Mapping} (leftBounded : left.Bounded)
    (rightBounded : right.Bounded) (same : left.encode = right.encode) :
    left.segments = right.segments := by
  have leftRead := left.decode_encode_segments leftBounded
  rw [same, right.decode_encode_segments rightBounded] at leftRead
  exact Array.toList_inj.mp (Except.ok.inj leftRead).symm

theorem fedParts_eq_iff {left right : Mapping} (leftBounded : left.Bounded)
    (rightBounded : right.Bounded) :
    left.fedParts = right.fedParts ↔
      left.segments = right.segments ∧ left.sources = right.sources ∧
        left.names = right.names := by
  rw [fedParts, fedParts, Prod.mk.injEq, Prod.mk.injEq, Array.toList_inj, Array.toList_inj]
  constructor
  · intro same
    exact ⟨segments_eq_of_encode leftBounded rightBounded same.1, same.2⟩
  · intro same
    refine ⟨?_, same.2⟩
    rw [encode, encode, same.1]

/-- Two mappings are fed alike exactly if they have the same segments and the same tables,
whatever their files and roots are, and only then is the feed of one the beginning of the
other's. -/
theorem feed_determines {left right : Mapping} (leftBounded : left.Bounded)
    (rightBounded : right.Bounded) (leftFits : left.Addressable)
    (rightFits : right.Addressable) :
    (left.feed [] = right.feed [] ↔
      left.segments = right.segments ∧ left.sources = right.sources ∧
        left.names = right.names) ∧
      (left.feed [] <+: right.feed [] → left.feed [] = right.feed []) := by
  rw [← fedParts_eq_iff leftBounded rightBounded]
  refine ⟨⟨?_, fun same => feed_of_fedParts same []⟩, ?_⟩
  · intro same
    exact (fedParts_of_feed leftFits rightFits same).1
  · intro isPrefix
    rcases isPrefix with ⟨more, whole⟩
    rw [← feed_append] at whole
    exact feed_of_fedParts (fedParts_of_feed leftFits rightFits whole).1 []

theorem feed_determines_absent :
    let left : Mapping :=
      { segments :=
          #[⟨⟨1, 0⟩, some ⟨7, 0, 3, some 9⟩⟩, ⟨⟨1, 4⟩, none⟩, ⟨⟨3, 0⟩, some ⟨0, 2, 0, none⟩⟩]
        sources := #[⟨some "s", none⟩, ⟨none, some "x"⟩]
        names := #["n"]
        ordered := Segment.ordered_of_firstDisorder?_eq_none _ rfl
        numbered := by decide }
    let right : Mapping := { left with sources := #[⟨some "s", some ""⟩, ⟨none, some "x"⟩] }
    let placed : Mapping := { left with file := some "f", sourceRoot := some "r" }
    (left.Bounded ∧ right.Bounded ∧ left.Addressable ∧ right.Addressable) ∧
      ¬ left.feed [] <+: right.feed [] ∧ left.feed [] = placed.feed [] := by
  intro left right placed
  have leftBounded : left.Bounded := by unfold Bounded; decide
  have rightBounded : right.Bounded := leftBounded
  have placedBounded : placed.Bounded := leftBounded
  have leftFits : left.Addressable := ⟨by decide +kernel, by decide, by decide⟩
  have rightFits : right.Addressable := ⟨by decide +kernel, by decide, by decide⟩
  have placedFits : placed.Addressable := ⟨leftFits.segments, leftFits.sources, leftFits.names⟩
  refine ⟨⟨leftBounded, rightBounded, leftFits, rightFits⟩, ?_, ?_⟩
  · intro isPrefix
    have told := feed_determines leftBounded rightBounded leftFits rightFits
    have sameSources := (told.1.mp (told.2 isPrefix)).2.1
    exact absurd sameSources (by decide)
  · exact (feed_determines leftBounded placedBounded leftFits placedFits).1.mpr ⟨rfl, rfl, rfl⟩

end Mapping

end SourceWeave
