import SourceWeave.Proofs.Language
import SourceWeave.Proofs.Listings
import SourceWeave.Proofs.RoundTrip

/-!
Mappings that are exchanged. A mapping written as a wire map is decoded as it was, except that
sources without an identity have no content there. Mappings that were decoded or put together,
and those of leaves, have no such content, and so they come back as they were.
-/

set_option autoImplicit false

namespace SourceWeave

open SourceRegistry (Settled)

namespace Mappings

theorem InRange.toNat_le {value : Int} (within : InRange value) : value.toNat ≤ Vlq.limit := by
  obtain ⟨least, most⟩ := within
  omega

theorem Standing.Admissible.bounded {piece : Standing} (admissible : piece.Admissible)
    (line : piece.line ≤ Vlq.limit) : piece.segment.Bounded := by
  refine ⟨line, admissible.column.toNat_le, ?_⟩
  intro location isOrigin
  rw [Standing.segment, Option.mem_def] at isOrigin
  split at isOrigin
  · rename_i traced
    cases isOrigin
    refine ⟨(admissible.source traced).toNat_le, (admissible.sourceLine traced).toNat_le,
      (admissible.sourceColumn traced).toNat_le, ?_⟩
    intro name isName
    rw [Option.mem_def] at isName
    split at isName
    · rename_i named
      cases isName
      exact (admissible.name named).toNat_le
    · cases isName
  · cases isOrigin

theorem bounded_of_decode {text : String} {segments : List Segment}
    (read : decode text = .ok segments) : ∀ segment ∈ segments, segment.Bounded := by
  obtain ⟨lines, _, fits, admissible, isSegments⟩ := exists_spells_of_decode read
  rw [isSegments, List.forall_mem_map]
  intro piece member
  obtain ⟨_, most⟩ := line_of_mem_standings member
  exact (admissible piece member).bounded (by omega)

end Mappings

namespace Mapping

def Bounded (mapping : Mapping) : Prop :=
  ∀ segment ∈ mapping.segments.toList, segment.Bounded

/-- The mapping without contents of sources that have no identity. -/
def settled (mapping : Mapping) : Mapping :=
  { mapping with sources := mapping.sources.map SourceRecord.settled }

theorem settled_eq {mapping : Mapping} (settled : Settled mapping.sources.toList) :
    mapping.settled = mapping := by
  have same : mapping.sources.map SourceRecord.settled = mapping.sources := by
    rw [← Array.toList_inj, Array.toList_map]
    exact settled.map_settled
  rw [Mapping.settled, same]

/-! ### Writing and reading -/

variable (mapping : Mapping)

theorem decode_encode_segments (bounded : mapping.Bounded) :
    Mappings.decode mapping.encode = .ok mapping.segments.toList := by
  rw [encode, Mappings.encode, Mappings.decode_eq_decodeRest, String.toList_ofList]
  apply Mappings.decodeRest_encodeFrom mapping.ordered bounded Mappings.Totals.bounded_initial
  intro segment member
  exact ⟨Nat.one_le_iff_ne_zero.mpr (mapping.numbered segment member), by simp⟩

/-- Contents that are left out because none is known are read as unknown ones. -/
theorem toWire_entries :
    mapping.toWire.entries = mapping.sources.toList.map SourceRecord.settled := by
  unfold toWire WireMap.entries
  simp only
  split
  · rw [Option.getD_some, List.zipWith_map, List.zipWith_self]
    rfl
  · rename_i noContent
    rw [Option.getD_none, List.map_map, List.zipWith_map, List.zipWith_self]
    apply List.map_congr_left
    intro entry member
    have unknown : entry.content = none := by
      rw [List.any_eq_true] at noContent
      exact Option.not_isSome_iff_eq_none.mp fun known => noContent ⟨entry, member, known⟩
    rw [SourceRecord.settled, unknown]
    rfl

theorem toWire_admissible : mapping.toWire.Admissible := by
  refine ⟨rfl, ?_⟩
  intro contents listed
  rw [toWire, Option.mem_def] at listed
  simp only at listed
  split at listed
  · cases listed
    rw [toWire, List.length_map, List.length_map]
  · cases listed

theorem decode_toWire_of_bounded (bounded : mapping.Bounded) :
    mapping.toWire.decode = .ok mapping.settled := by
  obtain ⟨built, isBuilt⟩ := exists_ofSegments mapping.ordered mapping.numbered
    mapping.toWire.entries.toArray mapping.toWire.names.toArray
  obtain ⟨sameSegments, sameSources, sameNames, _⟩ := ofSegments_eq_ok isBuilt
  have read : Mappings.decode mapping.toWire.mappings = .ok mapping.segments.toList :=
    mapping.decode_encode_segments bounded
  rw [WireMap.decode_eq_built mapping.toWire_admissible, WireMap.built, read]
  change ofSegments _ _ _ >>= _ = _
  rw [isBuilt]
  rw [toWire_entries, ← Array.toList_map, Array.toArray_toList] at sameSources
  rw [Array.toList_inj] at sameSegments
  cases built with
  | mk segments sources names file sourceRoot ordered numbered =>
    simp only at sameSegments sameSources sameNames
    subst sameSegments sameSources sameNames
    rfl

/-! ### Mappings that come about otherwise than from parts -/

variable {mapping}

theorem bounded_of_decode {wire : WireMap} (decoded : wire.decode = .ok mapping) :
    mapping.Bounded :=
  Mappings.bounded_of_decode (WireMap.decode_eq_ok decoded).2.2

/-- The mapping has been decoded or put together, or is that of a leaf. -/
inductive Obtained (mapping : Mapping) : Prop
  | decoded {wire : WireMap} (isDecoded : wire.decode = .ok mapping)
  | assembled {children : List TracedText} {pieces : List Piece} {withMap : Bool} {text : String}
      (isAssembled : assemble children pieces withMap = .ok ⟨text, .mapped mapping⟩)
  | leaf {leaf : MappedText} (isLeaf : leaf.mapping = .ok mapping)

theorem Obtained.settled (obtained : mapping.Obtained) : Settled mapping.sources.toList := by
  cases obtained with
  | @decoded wire isDecoded =>
      rw [(WireMap.decode_eq_ok isDecoded).1]
      exact wire.entries_settled
  | assembled isAssembled =>
      cases (canonical_of_assemble isAssembled).1 with
      | unknown isUnknown => cases isUnknown
      | mapped isMapped canonical =>
          cases isMapped
          exact canonical.settled
  | @leaf leaf isLeaf => exact leaf.mapping_settled.of_eq_ok _ isLeaf

/-- A mapping that is exchanged comes back without the contents of sources that have no identity,
and so as it was if it did not come from parts. -/
theorem decode_toWire (mapping : Mapping) :
    (mapping.Bounded → mapping.toWire.decode = .ok mapping.settled ∧
      (mapping.Obtained → mapping.toWire.decode = .ok mapping)) ∧
    ∀ wire : WireMap, wire.decode = .ok mapping → mapping.toWire.decode = .ok mapping := by
  have comesBack (bounded : mapping.Bounded) (obtained : mapping.Obtained) :
      mapping.toWire.decode = .ok mapping := by
    rw [mapping.decode_toWire_of_bounded bounded, settled_eq obtained.settled]
  constructor
  · intro bounded
    exact ⟨mapping.decode_toWire_of_bounded bounded, comesBack bounded⟩
  · intro wire decoded
    exact comesBack (bounded_of_decode decoded) (.decoded decoded)

theorem decode_toWire_anonymous :
    (let mapping : Mapping :=
      { segments :=
          #[⟨⟨1, 0⟩, some ⟨0, 0, 3, some 7⟩⟩, ⟨⟨1, 4⟩, none⟩, ⟨⟨3, 0⟩, some ⟨1, 2, 0, none⟩⟩]
        sources := #[⟨none, some "x"⟩, ⟨some "s", some "t"⟩, ⟨some "s", none⟩]
        names := #["n"]
        file := some "f"
        sourceRoot := some "r"
        ordered := Segment.ordered_of_firstDisorder?_eq_none _ rfl
        numbered := by decide }
    mapping.Bounded ∧
      mapping.toWire.decode =
        .ok { mapping with sources := #[⟨none, none⟩, ⟨some "s", some "t"⟩, ⟨some "s", none⟩] }) ∧
    (∃ mapping, assemble [⟨"a", .own "i"⟩] [.copy 0 0 1] true = .ok ⟨"a", .mapped mapping⟩ ∧
      mapping.Bounded ∧ mapping.toWire.decode = .ok mapping) ∧
    ∃ wire : WireMap, ∃ mapping, wire.decode = .ok mapping ∧
      mapping.toWire.decode = .ok mapping := by
  refine ⟨?_, ?_, ?_⟩
  · intro mapping
    have bounded : mapping.Bounded := by unfold Bounded; decide
    have cleared : mapping.sources.map SourceRecord.settled =
        #[⟨none, none⟩, ⟨some "s", some "t"⟩, ⟨some "s", none⟩] := by decide +kernel
    rw [← cleared]
    exact ⟨bounded, ((decode_toWire mapping).1 bounded).1⟩
  · let mapping : Mapping :=
      { segments := #[⟨⟨1, 0⟩, some ⟨0, 1, 0, none⟩⟩]
        sources := #[⟨some "i", some "a"⟩]
        ordered := Segment.ordered_of_firstDisorder?_eq_none _ rfl
        numbered := by decide }
    have assembled : assemble [⟨"a", .own "i"⟩] [.copy 0 0 1] true =
        .ok ⟨"a", .mapped mapping⟩ := by decide +kernel
    have bounded : mapping.Bounded := by unfold Bounded; decide
    exact ⟨mapping, assembled, bounded,
      ((decode_toWire mapping).1 bounded).2 (.assembled assembled)⟩
  · let mapping : Mapping :=
      { segments := #[⟨⟨2, 0⟩, some ⟨1, 0, 0, none⟩⟩]
        sources := #[⟨none, none⟩]
        ordered := Segment.ordered_of_firstDisorder?_eq_none _ rfl
        numbered := by decide }
    have decoded : ({ sources := [none], mappings := ";ACDA" } : WireMap).decode = .ok mapping := by
      decide +kernel
    exact ⟨_, mapping, decoded, (decode_toWire mapping).2 _ decoded⟩

end Mapping

end SourceWeave
