import SourceWeave.Proofs.Decoding
import SourceWeave.Proofs.EditLaws
import SourceWeave.Proofs.Passing

/-!
What the tables of a tree list. Every leaf lists sources and names of its own. A tree that puts
texts together lists what its leaves list from left to right, each source and each name once and
as it was listed first, however the tree is nested and whatever its edits leave of the texts.
-/

set_option autoImplicit false

namespace SourceWeave

namespace SourceRegistry

def Settled (entries : List SourceRecord) : Prop :=
  ∀ entry ∈ entries, entry.settled = entry

theorem Settled.append {front back : List SourceRecord} (inFront : Settled front)
    (inBack : Settled back) : Settled (front ++ back) := by
  intro entry member
  rcases List.mem_append.mp member with first | second
  · exact inFront entry first
  · exact inBack entry second

theorem Settled.settle {held : List SourceRecord} (settled : Settled held)
    (given : List SourceRecord) : Settled (settle held given) :=
  fun _ member => settled_of_mem_settle settled member

theorem Settled.map_settled {entries : List SourceRecord} (settled : Settled entries) :
    entries.map SourceRecord.settled = entries := by
  have same : entries.map SourceRecord.settled = entries.map id := List.map_congr_left settled
  rw [same, List.map_id]

theorem settled_nil : Settled [] := by
  intro entry impossible
  cases impossible

theorem Settled.settle_nil {entries : List SourceRecord} (settled : Settled entries) :
    SourceRegistry.settle [] entries =
      entries.eraseDupsBy fun left right => left.identity == right.identity := by
  rw [SourceRegistry.settle, settled.map_settled, enlist_eq_append_eraseDupsBy]
  simp

variable {table : SourceRegistry}

theorem addRecord_settled (settled : Settled table.entries.toList) (entry : SourceRecord) :
    Delivers (fun _ => false) (fun added => Settled added.2.entries.toList)
      (table.addRecord entry) := by
  refine ⟨?_, fun _ _ => rfl⟩
  intro added succeeds
  rw [(addRecord_eq_ok succeeds).1]
  exact settled.settle _

theorem addKnown_settled (settled : Settled table.entries.toList)
    (given : List (Option SourceRecord)) :
    Delivers (fun _ => false) (fun added => Settled added.2.entries.toList)
      (table.addKnown given) := by
  induction given generalizing table with
  | nil => exact .ok settled
  | cons entry rest ih =>
      cases entry with
      | none =>
          unfold addKnown
          exact (ih settled).bind fun _ restSettled => .ok restSettled
      | some entry =>
          unfold addKnown
          refine (addRecord_settled settled entry).bind fun _ firstSettled => ?_
          exact (ih firstSettled).bind fun _ restSettled => .ok restSettled

end SourceRegistry

open SourceRegistry (Settled)

namespace Passage

variable {passage : Passage} {tables : Tables}

theorem keep_settled (settled : Settled tables.sources.entries.toList) (location : Location) :
    Settled (passage.keep tables location).2.sources.entries.toList := by
  unfold keep
  split
  · exact settled
  · exact settled

theorem sendOn_settled (settled : Settled tables.sources.entries.toList) (location : Location) :
    Delivers (fun _ => false) (fun sent => Settled sent.2.sources.entries.toList)
      (passage.sendOn tables location) := by
  unfold sendOn
  split
  · exact .ok (keep_settled settled location)
  · exact (SourceRegistry.addRecord_settled settled _).bind fun _ grown => .ok grown

theorem redirect_settled (settled : Settled tables.sources.entries.toList) (segment : Segment) :
    Delivers (fun _ => false) (fun sent => Settled sent.2.sources.entries.toList)
      (passage.redirect tables segment) := by
  unfold redirect
  split
  · exact .ok settled
  · rename_i location _
    split
    · exact (sendOn_settled settled location).bind fun _ sentSettled => .ok sentSettled
    · exact .ok (keep_settled settled location)

theorem redirectAll_settled (settled : Settled tables.sources.entries.toList)
    (segments : List Segment) :
    Delivers (fun _ => false) (fun sent => Settled sent.2.sources.entries.toList)
      (passage.redirectAll tables segments) := by
  induction segments generalizing tables with
  | nil => exact .ok settled
  | cons segment rest ih =>
      unfold redirectAll
      refine (redirect_settled settled segment).bind fun _ firstSettled => ?_
      exact (ih firstSettled).bind fun _ restSettled => .ok restSettled

end Passage

namespace Mapping

theorem rooted_settled {mapping : Mapping} (settled : Settled mapping.sources.toList) :
    Settled mapping.rooted.sources.toList := by
  unfold rooted
  split
  · exact settled
  · exact settled
  · intro entry member
    rw [Array.toList_map] at member
    obtain ⟨original, inTable, isEntry⟩ := List.mem_map.mp member
    have unchanged := settled original inTable
    rw [← isEntry]
    cases original with
    | mk identity content =>
        cases identity with
        | none => exact unchanged
        | some identity => rfl

theorem cutTo_settled {mapping result : Mapping} {stop : Position}
    (settled : Settled mapping.sources.toList) (cut : mapping.cutTo stop = .ok result) :
    Settled result.sources.toList := by
  obtain ⟨inside, isConfined, cut⟩ := exists_of_bind_eq_ok cut
  rw [(withSegments_eq_ok cut).2.1]
  apply rooted_settled
  rw [(withSegments_eq_ok isConfined).2.1]
  exact settled

theorem through_settled {outer : Mapping} (settled : Settled outer.sources.toList)
    (intermediate : Intermediate) (stop : Position) :
    Delivers (fun _ => false) (fun mapping : Mapping => Settled mapping.sources.toList)
      (outer.through intermediate stop) := by
  unfold through
  split
  · exact .ok settled
  · refine (SourceRegistry.addKnown_settled SourceRegistry.settled_nil _).bind ?_
    intro added addedSettled
    refine (Passage.redirectAll_settled addedSettled _).bind ?_
    intro sent sentSettled
    refine ⟨?_, fun _ _ => rfl⟩
    intro mapping made
    obtain ⟨built, isBuilt, made⟩ := exists_of_bind_eq_ok made
    cases made
    obtain ⟨_, sameSources, _⟩ := ofSegments_eq_ok isBuilt
    change Settled built.sources.toList
    rw [sameSources]
    exact sentSettled

end Mapping

namespace WireMap

theorem entries_settled (wire : WireMap) : Settled wire.entries := by
  intro entry member
  rw [entries, ← List.map_uncurry_zip_eq_zipWith] at member
  obtain ⟨⟨identity, content⟩, _, isEntry⟩ := List.mem_map.mp member
  rw [← isEntry]
  exact SourceRecord.settled_settled ⟨identity, content⟩

theorem decode_eq_ok {wire : WireMap} {mapping : Mapping} (decoded : wire.decode = .ok mapping) :
    mapping.sources = wire.entries.toArray ∧ mapping.names = wire.names.toArray ∧
      Mappings.decode wire.mappings = .ok mapping.segments.toList := by
  by_cases admissible : wire.Admissible
  · rw [decode_eq_built admissible] at decoded
    obtain ⟨segments, isSegments, decoded⟩ := exists_of_bind_eq_ok decoded
    obtain ⟨unnamed, isUnnamed, decoded⟩ := exists_of_bind_eq_ok decoded
    cases decoded
    obtain ⟨sameSegments, sameSources, sameNames, _⟩ := Mapping.ofSegments_eq_ok isUnnamed
    refine ⟨sameSources, sameNames, ?_⟩
    rw [sameSegments]
    cases read : Mappings.decode wire.mappings with
    | error cause =>
        rw [read] at isSegments
        cases isSegments
    | ok spelled =>
        rw [read] at isSegments
        cases isSegments
        rfl
  · obtain ⟨cause, fails, _⟩ := decode_eq_error admissible
    rw [fails] at decoded
    cases decoded

theorem describing_settled (wire : WireMap) (text : String) :
    Delivers (fun _ => false) (fun mapping : Mapping => Settled mapping.sources.toList)
      (wire.describing text) := by
  refine ⟨?_, fun _ _ => rfl⟩
  intro mapping described
  obtain ⟨decoded, isDecoded, cut⟩ := exists_of_bind_eq_ok described
  refine Mapping.cutTo_settled ?_ cut
  rw [(decode_eq_ok isDecoded).1]
  exact wire.entries_settled

end WireMap

theorem MappedText.mapping_settled (leaf : MappedText) :
    Delivers (fun _ => false) (fun mapping : Mapping => Settled mapping.sources.toList)
      leaf.mapping := by
  refine (leaf.map.describing_settled leaf.text).bind ?_
  intro outer outerSettled
  split
  · exact .ok outerSettled
  · rename_i inner _
    split
    · exact .ok outerSettled
    · rename_i innerMap _
      refine (innerMap.describing_settled inner.text).bind fun innerMapping _ => ?_
      exact Mapping.through_settled outerSettled _ _

/-! ### What leaves list -/

namespace SourceTree

mutual

def leaves : SourceTree → List SourceTree
  | .joined children => leavesAll children
  | .edited child _ => leaves child
  | leaf => [leaf]

def leavesAll : List SourceTree → List SourceTree
  | [] => []
  | tree :: rest => leaves tree ++ leavesAll rest

end

/-- The sources that a leaf lists: itself, if it is a source of its own, or those of its mapping.
Plain text without an identity lists nothing. -/
def listedSources : SourceTree → List SourceRecord
  | .plain text (some identity) => [⟨some identity, some text⟩]
  | .authored text identity => [⟨some identity, some text⟩]
  | .mapped leaf =>
      match leaf.mapping with
      | .ok mapping => mapping.sources.toList
      | .error _ => []
  | _ => []

def listedNames : SourceTree → List String
  | .mapped leaf =>
      match leaf.mapping with
      | .ok mapping => mapping.names.toList
      | .error _ => []
  | _ => []

theorem listedSources_settled (leaf : SourceTree) : Settled leaf.listedSources := by
  unfold listedSources
  split
  · exact fun entry member => by rw [List.mem_singleton.mp member]; rfl
  · exact fun entry member => by rw [List.mem_singleton.mp member]; rfl
  · split
    · rename_i mapping isMapping
      exact (MappedText.mapping_settled _).of_eq_ok mapping isMapping
    · exact SourceRegistry.settled_nil
  · exact SourceRegistry.settled_nil

theorem leaves_settled (leaves : List SourceTree) :
    Settled (leaves.flatMap listedSources) := by
  intro entry member
  obtain ⟨leaf, _, isListed⟩ := List.mem_flatMap.mp member
  exact listedSources_settled leaf entry isListed

theorem brings_listed {leaf : SourceTree} {woven : TracedText} (alone : leaf.isComposed = false)
    (isWoven : meaning true leaf = .ok woven) :
    woven.entries = leaf.listedSources ∧ woven.nameEntries = leaf.listedNames := by
  cases leaf with
  | plain text identity =>
      rw [meaning] at isWoven
      cases isWoven
      cases identity <;> exact ⟨rfl, rfl⟩
  | authored text identity =>
      obtain ⟨mapping, made, rfl⟩ := exists_mapping_of_authored isWoven
      obtain ⟨_, sameSources, sameNames, _⟩ := Mapping.ofSegments_eq_ok made
      change mapping.sources.toList = _ ∧ mapping.names.toList = _
      rw [sameSources, sameNames]
      exact ⟨rfl, rfl⟩
  | mapped leaf =>
      obtain ⟨mapping, made, rfl⟩ := exists_mapping_of_mapped isWoven
      rw [listedSources, listedNames, made]
      exact ⟨rfl, rfl⟩
  | joined children => cases alone
  | edited child edits => cases alone

theorem entries_settled {tree : SourceTree} {woven : TracedText}
    (isWoven : meaning true tree = .ok woven) : Settled woven.entries := by
  cases kind : tree.isComposed with
  | true =>
      obtain ⟨canonical, _⟩ := canonical_of_meaning kind isWoven
      rw [← canonical.settle_entries]
      exact SourceRegistry.settled_nil.settle _
  | false =>
      rw [(brings_listed kind isWoven).1]
      exact tree.listedSources_settled

/-- The tables that texts bring are those that leaves list, once each. -/
structure Listing (texts : List TracedText) (leaves : List SourceTree) : Prop where
  sources : ∀ held, SourceRegistry.settle held (texts.flatMap TracedText.entries) =
    SourceRegistry.settle held (leaves.flatMap listedSources)
  names : ∀ held, enlist id held (texts.flatMap TracedText.nameEntries) =
    enlist id held (leaves.flatMap listedNames)

namespace Listing

variable {texts : List TracedText} {woven : TracedText} {leaves : List SourceTree}

theorem of_leaf {leaf : SourceTree} (alone : leaf.isComposed = false)
    (isWoven : meaning true leaf = .ok woven) : Listing [woven] [leaf] where
  sources := by
    intro held
    rw [List.flatMap_singleton, List.flatMap_singleton, (brings_listed alone isWoven).1]
  names := by
    intro held
    rw [List.flatMap_singleton, List.flatMap_singleton, (brings_listed alone isWoven).2]

theorem append {front back : List TracedText} {others : List SourceTree}
    (first : Listing front leaves) (second : Listing back others) :
    Listing (front ++ back) (leaves ++ others) where
  sources := by
    intro held
    rw [List.flatMap_append, List.flatMap_append, SourceRegistry.settle_append,
      SourceRegistry.settle_append, first.sources, second.sources]
  names := by
    intro held
    rw [List.flatMap_append, List.flatMap_append, enlist_append, enlist_append, first.names,
      second.names]

theorem of_composed {tracked : Bool} (listing : Listing texts leaves)
    (composed : Composed tracked (texts.flatMap TracedText.entries)
      (texts.flatMap TracedText.nameEntries) woven) : Listing [woven] leaves where
  sources := by
    intro held
    rw [List.flatMap_singleton, composed.settle_entries, listing.sources]
  names := by
    intro held
    rw [List.flatMap_singleton, composed.enlist_nameEntries, listing.names]

end Listing

mutual

theorem listing_of_meaning {tree : SourceTree} {woven : TracedText}
    (isWoven : meaning true tree = .ok woven) : Listing [woven] tree.leaves := by
  cases tree with
  | plain text identity => exact .of_leaf rfl isWoven
  | authored text identity => exact .of_leaf rfl isWoven
  | mapped leaf => exact .of_leaf rfl isWoven
  | joined children =>
      rw [meaning] at isWoven
      obtain ⟨results, areWoven, isWoven⟩ := exists_of_bind_eq_ok isWoven
      have joined := TracedText.joinOf_of_weaveJoined isWoven
      rw [TracedText.map_seen_true] at joined
      exact (listing_of_meanings areWoven).of_composed joined.composed
  | edited child edits =>
      rw [meaning] at isWoven
      obtain ⟨result, isResult, isWoven⟩ := exists_of_bind_eq_ok isWoven
      have composed := (editOf_of_weaveEdited isWoven).composed
      rw [← List.flatMap_singleton TracedText.entries,
        ← List.flatMap_singleton TracedText.nameEntries] at composed
      exact (listing_of_meaning isResult).of_composed composed

theorem listing_of_meanings {trees : List SourceTree} {results : List TracedText}
    (areWoven : meanings true trees = .ok results) : Listing results (leavesAll trees) := by
  cases trees with
  | nil =>
      cases areWoven
      exact ⟨fun _ => rfl, fun _ => rfl⟩
  | cons tree rest =>
      rw [meanings] at areWoven
      obtain ⟨first, isFirst, areWoven⟩ := exists_of_bind_eq_ok areWoven
      obtain ⟨others, areOthers, areWoven⟩ := exists_of_bind_eq_ok areWoven
      cases areWoven
      exact (listing_of_meaning isFirst).append (listing_of_meanings areOthers)

end

/-! ### What a tree lists -/

theorem underOptions_tables {options : MappingOptions} {mapping shown : Mapping}
    (isShown : underOptions options mapping = .ok shown) :
    shown.sources = mapping.sources ∧ shown.names = mapping.names := by
  unfold underOptions at isShown
  split at isShown
  · cases isShown
    exact ⟨rfl, rfl⟩
  · obtain ⟨kept, isKept, isShown⟩ := exists_of_bind_eq_ok isShown
    cases isShown
    obtain ⟨_, sameSources, sameNames, _⟩ := Mapping.withSegments_eq_ok isKept
    exact ⟨sameSources, sameNames⟩

theorem exists_woven_of_rendering {tree : SourceTree} {options : MappingOptions} {text : String}
    {mapping : Mapping} (rendered : tree.rendering options = .ok ⟨text, some mapping⟩) :
    ∃ woven, tree.weave true = .ok woven ∧ woven.entries = mapping.sources.toList ∧
      woven.nameEntries = mapping.names.toList := by
  obtain ⟨woven, isWoven, rendered⟩ := exists_of_bind_eq_ok rendered
  obtain ⟨known, isKnown, rendered⟩ := exists_of_bind_eq_ok rendered
  cases rendered
  refine ⟨woven, isWoven, ?_⟩
  unfold TracedText.entries TracedText.nameEntries
  cases isProvenance : woven.provenance with
  | unknown =>
      rw [isProvenance] at isKnown
      cases isKnown
  | own identity =>
      rw [isProvenance] at isKnown
      cases isKnown
  | mapped held =>
      rw [isProvenance] at isKnown
      obtain ⟨shown, isShown, isKnown⟩ := exists_of_bind_eq_ok isKnown
      cases isKnown
      obtain ⟨sameSources, sameNames⟩ := underOptions_tables isShown
      exact ⟨by rw [sameSources], by rw [sameNames]⟩

/-- A tree that puts texts together lists every source and every name of its leaves once, as and
where it is listed first. Its source without an identity has no content. -/
theorem rendering_tables {tree : SourceTree} {options : MappingOptions} {text : String}
    {mapping : Mapping} (composed : tree.isComposed = true)
    (rendered : tree.rendering options = .ok ⟨text, some mapping⟩) :
    mapping.sources.toList = (tree.leaves.flatMap listedSources).eraseDupsBy
        (fun left right => left.identity == right.identity) ∧
      (∀ entry ∈ mapping.sources.toList, entry.identity = none → entry.content = none) ∧
      mapping.names.toList = (tree.leaves.flatMap listedNames).eraseDups := by
  obtain ⟨woven, isWoven, sources, names⟩ := exists_woven_of_rendering rendered
  rw [weave_eq_meaning] at isWoven
  have listing := listing_of_meaning isWoven
  obtain ⟨canonical, _⟩ := canonical_of_meaning composed isWoven
  have settled := leaves_settled tree.leaves
  have listedOnce : woven.entries =
      SourceRegistry.settle [] (tree.leaves.flatMap listedSources) := by
    rw [← listing.sources, List.flatMap_singleton, canonical.settle_entries]
  have namedOnce : woven.nameEntries = enlist id [] (tree.leaves.flatMap listedNames) := by
    rw [← listing.names, List.flatMap_singleton, canonical.enlist_nameEntries]
  refine ⟨?_, ?_, ?_⟩
  · rw [← sources, listedOnce, settled.settle_nil]
  · intro entry member anonymous
    rw [← sources, listedOnce] at member
    have unchanged := SourceRegistry.settled_nil.settle _ entry member
    rw [← unchanged, SourceRecord.settled, anonymous]
    rfl
  · rw [← names, namedOnce, enlist_eq_append_eraseDupsBy]
    simp [List.eraseDups]

theorem rendering_tables_deleted :
    let file : SourceTree := .authored "ab" "f"
    let mapped : SourceTree :=
      .mapped
        { text := "cd"
          identity := "i"
          map :=
            { sources := [some "s", none, some "s", some "f"]
              names := ["n", "m", "n"]
              mappings := "AAAAA,CCAAC" } }
    let tree : SourceTree :=
      .joined
        [.edited file
            { edits := [⟨0, 2, ""⟩]
              forward := by decide
              disjoint := List.pairwise_singleton _ _ },
          .joined [.plain "x" none, mapped, .plain "y" (some "g")], file]
    ∃ text mapping, tree.rendering {} = .ok ⟨text, some mapping⟩ ∧
      mapping.sources.toList =
        [⟨some "f", some "ab"⟩, ⟨some "s", none⟩, ⟨none, none⟩, ⟨some "g", some "y"⟩] ∧
      mapping.names.toList = ["n", "m"] := by
  intro file mapped tree
  have succeeds : (tree.rendering {}).toOption.any (fun rendered => rendered.mapping.isSome) =
      true := by decide +kernel
  obtain ⟨text, mapping, rendered⟩ := exists_mapping_of_rendering succeeds
  obtain ⟨sources, _, names⟩ := rendering_tables rfl rendered
  refine ⟨text, mapping, rendered, ?_, ?_⟩
  · rw [sources]
    decide +kernel
  · rw [names]
    decide +kernel

end SourceTree

end SourceWeave
