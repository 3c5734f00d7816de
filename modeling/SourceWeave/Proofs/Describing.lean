import SourceWeave.Proofs.Annotation
import SourceWeave.Proofs.Outcomes
import SourceWeave.Proofs.WellFormed

/-!
What a wire map says of the text that it came with. A map that can be decoded can be cut to its
text, and no place before the end of the text is then traced elsewhere than the decoded map
traces it: not where a source or a name is missing from its table, and not where a marker is
dropped or a segment stands behind the end.
-/

set_option autoImplicit false

namespace SourceWeave

namespace Mapping

/-- An identity as it stands under the root of a map, which may be missing or empty. -/
def identityUnder (root : Option String) (identity : String) : String :=
  match root.filter (· ≠ "") with
  | none => identity
  | some root => underRoot root identity

def Trace.under (root : Option String) (trace : Trace) : Trace :=
  { trace with identity := trace.identity.map (identityUnder root) }

def Reading.under (root : Option String) (reading : Reading) : Reading :=
  { reading with trace := reading.trace.under root }

def sourcesUnder (root : Option String) (sources : Array SourceRecord) : Array SourceRecord :=
  sources.map fun entry => { entry with identity := entry.identity.map (identityUnder root) }

theorem identityUnder_of_ne {root : String} (notEmpty : root ≠ "") :
    identityUnder (some root) = underRoot root := by
  funext identity
  simp [identityUnder, Option.filter_some, notEmpty]

theorem sourcesUnder_of_blank {root : Option String} (blank : root.filter (· ≠ "") = none)
    (sources : Array SourceRecord) : sourcesUnder root sources = sources := by
  have same : identityUnder root = id := by
    funext identity
    rw [identityUnder, blank]
    rfl
  simp [sourcesUnder, same]

theorem rooted_sources (mapping : Mapping) :
    mapping.rooted.sources = sourcesUnder mapping.sourceRoot mapping.sources := by
  unfold rooted
  split
  · rename_i noRoot
    rw [noRoot, sourcesUnder_of_blank rfl]
  · rename_i emptyRoot
    rw [emptyRoot, sourcesUnder_of_blank rfl]
  · rename_i _ root notEmpty isRoot
    simp only [sourcesUnder, isRoot, identityUnder_of_ne notEmpty]

end Mapping

namespace Segment

open Mapping (sourcesUnder)

theorem bind_filter_lt_size (names : Array String) (name : Option Nat) :
    (name.filter (· < names.size)).bind (names[·]?) = name.bind (names[·]?) := by
  cases name with
  | none => rfl
  | some index =>
      rw [Option.filter_some]
      split
      · rfl
      · rename_i outside
        rw [Option.bind_none, Option.bind_some, Array.getElem?_eq_none]
        exact Nat.not_lt.mp (fun within => outside (decide_eq_true within))

theorem read_confined (root : Option String) (sources : Array SourceRecord)
    (names : Array String) (place : Position) (segment : Segment) :
    read (sourcesUnder root sources) names place (confined sources.size names.size segment) =
      (read sources names place segment).map (Mapping.Reading.under root) := by
  rw [read, read, confined]
  cases isOrigin : segment.origin with
  | none => rfl
  | some location =>
      by_cases known : location.source < sources.size
      · simp [Option.filter_some, known, sourcesUnder, bind_filter_lt_size,
          Mapping.Reading.under, Mapping.Trace.under]
      · simp [Option.filter_some, known]

end Segment

/-! ### Cutting -/

namespace Mapping

variable {mapping result : Mapping} {stop : Position}

theorem cutTo_file (cut : mapping.cutTo stop = .ok result) : result.file = mapping.file := by
  rcases exists_of_bind_eq_ok cut with ⟨inside, isConfined, cut⟩
  rw [file_of_withSegments cut, rooted_file, file_of_withSegments isConfined]

/-- Before the end of the text a place is told as before. -/
theorem reading?_cutTo (cut : mapping.cutTo stop = .ok result) {place : Position}
    (before : place < stop) :
    result.reading? place = (mapping.reading? place).map (Reading.under mapping.sourceRoot) := by
  rcases exists_of_bind_eq_ok cut with ⟨inside, isConfined, cut⟩
  rcases withSegments_eq_ok isConfined with
    ⟨confinedSegments, confinedSources, confinedNames, confinedRoot⟩
  rcases withSegments_eq_ok cut with ⟨sameSegments, sameSources, sameNames, _⟩
  have ordered : Segment.Ordered
      (inside.rooted.segments.toList.take (inside.rooted.countBefore stop)) :=
    List.Pairwise.sublist (List.take_sublist _ _) inside.rooted.ordered
  have reached : ∀ segment ∈ inside.rooted.segments.toList,
      Segment.covers place segment = true → decide (segment.position < stop) = true := by
    intro segment _ covered
    exact decide_eq_true (Position.lt_of_le_of_lt (Segment.le_of_covers covered) before)
  rw [reading?, sameSegments, sameSources, sameNames, Segment.reading?_eq_tracing,
    Segment.tracing_prune before ordered, ← Segment.reading?_eq_tracing, Segment.reading?,
    take_countBefore, Segment.lastCovering_filter reached, rooted_segments, confinedSegments,
    Segment.lastCovering_map place (Segment.confined _ _) fun _ => rfl, rooted_sources,
    rooted_names, confinedSources, confinedNames, confinedRoot, reading?, Segment.reading?]
  cases Segment.lastCovering place mapping.segments.toList with
  | none => rfl
  | some segment => exact Segment.read_confined _ _ _ place segment

theorem trace?_cutTo (cut : mapping.cutTo stop = .ok result) {place : Position}
    (before : place < stop) :
    result.trace? place = (mapping.trace? place).map (Trace.under mapping.sourceRoot) := by
  rw [trace?_eq_reading?, trace?_eq_reading?, reading?_cutTo cut before, Option.map_map,
    Option.map_map]
  rfl

theorem nameAt?_cutTo (cut : mapping.cutTo stop = .ok result) {place : Position}
    (before : place < stop) : result.nameAt? place = mapping.nameAt? place := by
  rw [nameAt?_eq_reading?, nameAt?_eq_reading?, reading?_cutTo cut before, Option.bind_map]
  rfl

end Mapping

/-! ### Leaves -/

/-- A map without an inner text is refused exactly if it cannot be decoded, and for the same
reason. Otherwise the leaf's mapping says of every place before the end of the text, and so of
the place of each character, what the decoded map says, with sources under their root; it says
nothing of other places and keeps the file. -/
theorem MappedText.mapping_describes (text identity : String) (wire : WireMap) :
    let leaf : MappedText := { text, identity, map := wire }
    let stop := (IndexedText.ofString text).endPosition
    failure? leaf.mapping = failure? wire.decode ∧
      ∀ decoded, wire.decode = .ok decoded → ∃ mapping, leaf.mapping = .ok mapping ∧
        (∀ place, place < stop →
          mapping.trace? place =
              (decoded.trace? place).map (Mapping.Trace.under decoded.sourceRoot) ∧
            mapping.nameAt? place = decoded.nameAt? place) ∧
        (∀ segment ∈ mapping.segments.toList, segment.position < stop) ∧
        mapping.file = decoded.file := by
  intro leaf stop
  have outcome : leaf.mapping = wire.decode >>= fun decoded => decoded.cutTo stop := bind_pure _
  constructor
  · rw [outcome]
    cases wire.decode with
    | error cause => rfl
    | ok decoded =>
        rcases decoded.exists_cutTo stop with ⟨mapping, cut⟩
        rw [ok_bind, cut]
        rfl
  · intro decoded isDecoded
    rcases decoded.exists_cutTo stop with ⟨mapping, cut⟩
    refine ⟨mapping, ?_, ?_, (Mapping.cutTo_eq_ok cut).1.inside, Mapping.cutTo_file cut⟩
    · rw [outcome, isDecoded, ok_bind, cut]
    · intro place before
      exact ⟨Mapping.trace?_cutTo cut before, Mapping.nameAt?_cutTo cut before⟩

theorem MappedText.mapping_describes_dangling :
    let wire : WireMap :=
      { file := some "f"
        sourceRoot := some "r/"
        sources := [some "s"]
        names := ["n"]
        mappings := "AAAIA,COEFA,C,OPKM;AANRK,E,EAAA" }
    let decoded : Mapping :=
      { segments :=
          #[⟨⟨1, 0⟩, some ⟨0, 1, 4, some 0⟩⟩, ⟨⟨1, 1⟩, some ⟨7, 3, 2, some 0⟩⟩, ⟨⟨1, 2⟩, none⟩,
            ⟨⟨1, 9⟩, some ⟨0, 8, 8, none⟩⟩, ⟨⟨2, 0⟩, some ⟨0, 2, 0, some 5⟩⟩, ⟨⟨2, 2⟩, none⟩,
            ⟨⟨2, 4⟩, some ⟨0, 2, 0, none⟩⟩]
        sources := #[⟨some "s", none⟩]
        names := #["n"]
        file := some "f"
        sourceRoot := some "r/"
        ordered := Segment.ordered_of_firstDisorder?_eq_none _ rfl
        numbered := by decide }
    let places : List Position := [⟨1, 0⟩, ⟨1, 1⟩, ⟨1, 2⟩, ⟨1, 3⟩, ⟨2, 0⟩, ⟨2, 1⟩]
    wire.decode = .ok decoded ∧
      ∃ mapping, ({ text := "abc\nde", identity := "i", map := wire } : MappedText).mapping =
          .ok mapping ∧
        places.map mapping.trace? =
          [some ⟨some "r/s", 1, 4⟩, none, none, none, some ⟨some "r/s", 2, 0⟩,
            some ⟨some "r/s", 2, 1⟩] ∧
        places.map mapping.nameAt? = [some "n", none, none, none, none, none] ∧
        mapping.file = some "f" := by
  intro wire decoded places
  have isDecoded : wire.decode = .ok decoded := by decide +kernel
  have inText : ∀ place ∈ places, place < (IndexedText.ofString "abc\nde").endPosition := by
    decide +kernel
  rcases (mapping_describes "abc\nde" "i" wire).2 decoded isDecoded with
    ⟨mapping, isMapping, told, _, sameFile⟩
  have traces : places.map mapping.trace? = places.map fun place =>
      (decoded.trace? place).map (Mapping.Trace.under decoded.sourceRoot) :=
    List.map_congr_left fun place member => (told place (inText place member)).1
  have names : places.map mapping.nameAt? = places.map decoded.nameAt? :=
    List.map_congr_left fun place member => (told place (inText place member)).2
  refine ⟨isDecoded, mapping, isMapping, ?_, ?_, sameFile⟩
  · rw [traces]
    decide +kernel
  · rw [names]
    decide +kernel

end SourceWeave
