import Mathlib.Data.List.Infix
import SourceWeave.Proofs.GuardedReading
import SourceWeave.Proofs.Outcomes

/-!
Assembling under guards. Of children and pieces whose texts stay shorter than the largest word
every difference of lines, columns and offsets, every entry and every stretch that assembling
takes is there, and every line number fits a word, whatever the ranges and indices of the pieces
and the tables of the children are. Only columns are added without a guard.
-/

set_option autoImplicit false

namespace SourceWeave

namespace Guarded

def relocate (place origin target : Position) : Guarded Position :=
  if place.line = origin.line then do
    let columns ← minus place.column origin.column
    return ⟨target.line, target.column + columns⟩
  else do
    let lines ← minus place.line origin.line
    return ⟨← word (target.line + lines), place.column⟩

def headOrigin (mapping : Mapping) (sources names : Array Nat) (start : Position) :
    Guarded (Option Location) := do
  match ← covering mapping start with
  | none => return none
  | some segment =>
      match segment.origin.bind (Location.relink sources names) with
      | none => return none
      | some location =>
          if segment.position.column = start.column then return some location
          else
            let distance ← minus start.column segment.position.column
            return some { location with column := location.column + distance, name := none }

def excerpt (mapping : Mapping) (sources names : Array Nat) (start stop target : Position) :
    Guarded (List Segment) := do
  let head ← headOrigin mapping sources names start
  let inside ← stretch mapping.segments (mapping.countBefore start) (mapping.countBefore stop)
  let further ← (inside.toList.filter fun segment => segment.position ≠ start).mapM
    fun segment => do
      let place ← relocate segment.position start target
      return ⟨place, segment.origin.bind (Location.relink sources names)⟩
  return ⟨target, head⟩ :: further

def ownSegments (source : Nat) (start stop target : Position) : Guarded (List Segment) := do
  let next ← word (start.line + 1)
  let places := (List.range (stop.line + 1 - next)).map fun count => (⟨next + count, 0⟩ : Position)
  let further ← (places.filter fun place => place < stop).mapM fun place => do
    return Segment.traced (← relocate place start target) source place.line 0
  return Segment.traced target source start.line start.column :: further

def segments (links : Links) (start stop target : Position) : Guarded (List Segment) :=
  match links with
  | .unknown => return [Segment.marker target]
  | .own source => ownSegments source start stop target
  | .mapped mapping sources names => excerpt mapping sources names start stop target

theorem mapM_of_forall {α β : Type} {action : α → Guarded β} {change : α → β} {items : List α}
    (alike : ∀ item ∈ items, action item = pure (change item)) :
    items.mapM action = pure (items.map change) := by
  induction items with
  | nil => rfl
  | cons item rest ih =>
      rw [List.mapM_cons, alike item List.mem_cons_self, pure_bind,
        ih fun other member => alike other (List.mem_cons_of_mem item member), pure_bind]
      rfl

theorem relocate_eq {place origin target : Position} (fromOrigin : origin ≤ place)
    (fits : target.line + (place.line - origin.line) < 2 ^ 32) :
    relocate place origin target = pure (place.relocate origin target) := by
  rw [Position.le_iff] at fromOrigin
  rw [relocate, Position.relocate]
  by_cases onLine : place.line = origin.line
  · rw [if_pos onLine, if_pos onLine, minus_of_le (by omega), pure_bind]
  · rw [if_neg onLine, if_neg onLine, minus_of_le (by omega), pure_bind, word_of_lt fits, pure_bind]

theorem headOrigin_eq (mapping : Mapping) (sources names : Array Nat) (start : Position) :
    headOrigin mapping sources names start = pure (mapping.headOrigin sources names start) := by
  rw [headOrigin, covering_eq, pure_bind, Mapping.headOrigin]
  cases found : mapping.covering start with
  | none => rfl
  | some segment =>
      rw [mapping.covering_eq] at found
      have covered := Segment.covers_iff.mp (Segment.mem_of_lastCovering found).2
      simp only [Option.bind_eq_bind, Option.bind_some]
      cases segment.origin.bind (Location.relink sources names) with
      | none => rfl
      | some location =>
          simp only [Option.bind_some]
          by_cases exact : segment.position.column = start.column
          · rw [if_pos exact, if_pos exact]
            rfl
          · rw [if_neg exact, if_neg exact, minus_of_le covered.2, pure_bind]
            rfl

section Copy

variable {start stop target : Position}

theorem excerpt_eq (mapping : Mapping) (sources names : Array Nat) (inOrder : start ≤ stop)
    (fits : target.line + (stop.line - start.line) < 2 ^ 32) :
    excerpt mapping sources names start stop target =
      pure (mapping.excerpt sources names start stop target) := by
  have within : mapping.countBefore stop ≤ mapping.segments.size := partitionPoint_le_size _ _
  rw [excerpt, headOrigin_eq, pure_bind,
    stretch_of_le (mapping.countBefore_le_countBefore inOrder) within, pure_bind, mapM_of_forall,
    pure_bind]
  · rfl
  · intro segment member
    have isInside := (List.mem_filter.mp member).1
    rw [mapping.extract_countBefore inOrder] at isInside
    have inside := of_decide_eq_true (List.mem_filter.mp isInside).2
    obtain ⟨fromStart, beforeStop⟩ := inside
    rw [Position.lt_iff] at beforeStop
    rw [relocate_eq fromStart (by omega), pure_bind]

theorem ownSegments_eq (source : Nat) (next : start.line + 1 < 2 ^ 32)
    (fits : target.line + (stop.line - start.line) < 2 ^ 32) :
    ownSegments source start stop target =
      pure (SourceWeave.ownSegments source start stop target) := by
  rw [ownSegments, word_of_lt next, pure_bind]
  dsimp only
  rw [mapM_of_forall, pure_bind]
  · rw [Nat.add_sub_add_right]
    rfl
  · intro place member
    obtain ⟨isPlace, beforeStop⟩ := List.mem_filter.mp member
    have before := of_decide_eq_true beforeStop
    obtain ⟨count, _, isCount⟩ := List.mem_map.mp isPlace
    have behind : start.line < place.line := by
      rw [← isCount]
      simp only
      omega
    rw [Position.lt_iff] at before
    rw [relocate_eq (Or.inl behind) (by omega), pure_bind]

theorem segments_eq (links : Links) (inOrder : start ≤ stop) (next : start.line + 1 < 2 ^ 32)
    (fits : target.line + (stop.line - start.line) < 2 ^ 32) :
    segments links start stop target = pure (links.segments start stop target) := by
  cases links with
  | unknown => rfl
  | own source => exact ownSegments_eq source next fits
  | mapped mapping sources names => exact excerpt_eq mapping sources names inOrder fits

end Copy

/-! ### Piece by piece -/

def paste (linked : Assembly) (target : Position) (links : Links) (child : IndexedText)
    (start stop : Nat) (text : String) : Guarded Assembly := do
  if start = stop then
    return linked.append text []
  else
    let first ← positionAt child start
    let last ← positionAt child stop
    let added ← segments links first last target
    let copied := linked.append text added
    let behind ← endPosition copied.output
    return copied.append "" [Segment.marker behind]

def copy (withMap : Bool) (children : Array Strand) (assembly : Assembly) (target : Position)
    (index start stop : Nat) : Guarded Assembly := do
  match children[index]? with
  | none => passed (.error (.outOfRange .child index (children.size - 1)))
  | some child =>
      let _ ← entry assembly.links index
      if withMap then
        let (links, linked) ← passed (assembly.link index child)
        let text ← slice child.text start stop
        let after ← paste linked target links child.text start stop text
        let _ ← entry after.links index
        return after
      else
        let text ← slice child.text start stop
        let _ ← entry assembly.links index
        return assembly.append text []

def step (withMap : Bool) (children : Array Strand) (assembly : Assembly) (piece : Piece) :
    Guarded Assembly := do
  let target ← endPosition assembly.output
  match piece with
  | .copy index start stop => copy withMap children assembly target index start stop
  | .insert text marked =>
      return assembly.append text <|
        if withMap ∧ marked ∧ text ≠ "" then [Segment.marker target] else []

def assemble (children : List TracedText) (pieces : List Piece) (withMap : Bool) :
    Guarded TracedText := do
  let children := (children.map Strand.ofTracedText).toArray
  let assembly ← pieces.foldlM (step withMap children)
    { links := Array.replicate children.size none }
  if assembly.isTracked then
    let stop ← endPosition assembly.output
    let mapping ← passed (Mapping.ofSegments
      (Segment.prune stop (Segment.latest assembly.segments.toList))
      assembly.sources.entries assembly.names.names)
    return ⟨assembly.output.text, .mapped mapping⟩
  else
    return ⟨assembly.output.text, .unknown⟩

section Copy

variable {child : TracedText} {start stop : Nat}

theorem line_landing (inOrder : start ≤ stop) (characters : List Char) (target : Position) :
    target.line + ((Position.ofOffset characters stop).line -
      (Position.ofOffset characters start).line) =
        (target.behind (Utf16.between start stop characters)).line := by
  rw [Position.ofOffset_line, Position.ofOffset_line, ← Position.relocate_line_eq_add,
    Position.relocate_behind_take inOrder]

theorem paste_eq {linked : Assembly} {front : String} (links : Links)
    (output : linked.output = IndexedText.ofString front) (inOrder : start ≤ stop)
    (within : stop ≤ utf16Length child.text) (shortChild : utf16Length child.text < 2 ^ 32 - 1)
    (short : utf16Length (front ++ String.ofList (Utf16.between start stop child.text.toList)) <
      2 ^ 32 - 1) :
    paste linked linked.output.endPosition links (IndexedText.ofString child.text) start stop
        (String.ofList (Utf16.between start stop child.text.toList)) =
      pure (linked.paste links child start stop
        (String.ofList (Utf16.between start stop child.text.toList))) := by
  rw [paste, Assembly.paste]
  by_cases empty : start = stop
  · rw [if_pos empty, if_pos empty]
  · rw [if_neg empty, if_neg empty, positionAt_ofString shortChild,
      positionAt_ofString shortChild, IndexedText.positionAt_eq (Nat.le_trans inOrder within),
      IndexedText.positionAt_eq within, passed_ok, passed_ok, pure_bind, pure_bind]
    have ends := Position.ofOffset_le_ofOffset inOrder within
    have next := Position.ofOffset_line_le child.text.toList start
    have fits : linked.output.endPosition.line +
        ((Position.ofOffset child.text.toList stop).line -
          (Position.ofOffset child.text.toList start).line) < 2 ^ 32 := by
      have lines := Position.line_behind_le Position.first
        (front.toList ++ Utf16.between start stop child.text.toList)
      rw [Position.first_line] at lines
      rw [utf16Length, String.toList_append, String.toList_ofList] at short
      rw [line_landing inOrder, output, IndexedText.endPosition_ofString, ← Position.behind_append]
      omega
    have behind := congrArg (IndexedText.append · (String.ofList
      (Utf16.between start stop child.text.toList))) output
    rw [IndexedText.append_ofString] at behind
    rw [segments_eq links ends (by omega) fits, pure_bind]
    change endPosition (linked.output.append _) >>= _ = _
    rw [behind, endPosition_ofString short, pure_bind, ← behind]
    rfl

end Copy

section Run

variable {children : List TracedText} {withMap : Bool} {before after : Assembly}

/-- An assembly whose text is indexed and that has a place for the links of every child. -/
structure Ready (children : List TracedText) (assembly : Assembly) : Prop where
  output : assembly.output = IndexedText.ofString assembly.output.text
  links : assembly.links.size = children.length

def ShortOn (children : List TracedText) (withMap : Bool) (before : Assembly)
    (pieces : List Piece) : Prop :=
  ∀ front, front <+: pieces → ∀ after : Assembly,
    front.foldlM (Assembly.step withMap (children.map Strand.ofTracedText).toArray) before =
      .ok after → utf16Length after.output.text < 2 ^ 32 - 1

theorem ShortOn.now {pieces : List Piece} (short : ShortOn children withMap before pieces) :
    utf16Length before.output.text < 2 ^ 32 - 1 :=
  short [] List.nil_prefix before rfl

theorem ShortOn.further {piece : Piece} {rest : List Piece}
    (short : ShortOn children withMap before (piece :: rest))
    (stepped : before.step withMap (children.map Strand.ofTracedText).toArray piece = .ok after) :
    ShortOn children withMap after rest := by
  intro front isFront last ran
  apply short (piece :: front) (List.cons_prefix_cons.mpr ⟨rfl, isFront⟩)
  rw [List.foldlM_cons, stepped]
  exact ran

theorem Ready.step (ready : Ready children before) {piece : Piece}
    (stepped : before.step withMap (children.map Strand.ofTracedText).toArray piece =
      .ok after) : Ready children after := by
  obtain ⟨⟨text, output⟩, sameSize⟩ := Assembly.step_keeps stepped
  refine ⟨?_, sameSize.trans ready.links⟩
  rw [output, ready.output, IndexedText.append_ofString, IndexedText.ofString_text]

theorem exists_entry {links : Array (Option Links)} {index : Nat} {child : TracedText}
    (sameSize : links.size = children.length) (isChild : children[index]? = some child) :
    ∃ held, entry links index = pure held := by
  have inLinks : index < links.size := by
    rw [sameSize]
    exact (List.getElem?_eq_some_iff.mp isChild).1
  exact ⟨_, entry_of_getElem? (Array.getElem?_eq_getElem inLinks)⟩

theorem copy_eq (ready : Ready children before) {index start stop : Nat}
    (shortChildren : ∀ child ∈ children, utf16Length child.text < 2 ^ 32 - 1)
    (short : ∀ after, before.copy withMap (children.map Strand.ofTracedText).toArray
      index start stop = .ok after → utf16Length after.output.text < 2 ^ 32 - 1) :
    copy withMap (children.map Strand.ofTracedText).toArray before before.output.endPosition
        index start stop =
      passed (before.copy withMap (children.map Strand.ofTracedText).toArray
        index start stop) := by
  rw [copy, List.getElem?_toArray, List.getElem?_map]
  cases isChild : children[index]? with
  | none =>
      rw [Assembly.copy_of_missing isChild, List.size_toArray, List.length_map]
      rfl
  | some child =>
      have shortChild := shortChildren child (List.mem_of_getElem? isChild)
      obtain ⟨taken, isTaken⟩ := exists_entry ready.links isChild
      rw [Option.map_some]
      simp only
      rw [isTaken, pure_bind]
      cases withMap with
      | false =>
          rw [Assembly.copy_false_eq isChild, if_neg Bool.false_ne_true]
          change slice (IndexedText.ofString child.text) start stop >>= _ = _
          rw [slice_ofString]
          apply passed_bind
          intro text _
          rw [pure_bind]
          rfl
      | true =>
          rw [Assembly.copy_true_eq isChild, if_pos rfl]
          rw [Assembly.copy_true_eq isChild] at short
          apply passed_bind
          intro ⟨links, linked⟩ entered
          obtain ⟨sameOutput, sameSize⟩ := Assembly.link_keeps entered
          change slice (IndexedText.ofString child.text) start stop >>= _ = _
          rw [slice_ofString]
          apply passed_bind
          intro text sliced
          obtain ⟨⟨inOrder, within⟩, isText⟩ := IndexedText.slice_eq_ok_iff.mp sliced
          rw [entered, ok_bind, sliced, ok_bind] at short
          have shortAfter := short _ rfl
          rw [Assembly.paste_output, sameOutput, ready.output, IndexedText.append_ofString,
            IndexedText.ofString_text, isText] at shortAfter
          have output : linked.output = IndexedText.ofString before.output.text :=
            sameOutput.trans ready.output
          obtain ⟨_, _, keptLinks⟩ := Assembly.paste_keeps linked links child start stop text
          rw [← keptLinks] at sameSize
          obtain ⟨given, isGiven⟩ := exists_entry (sameSize.trans ready.links) isChild
          change paste linked before.output.endPosition links (IndexedText.ofString child.text)
            start stop text >>= _ = _
          subst isText
          rw [← sameOutput, paste_eq links output inOrder within shortChild shortAfter, pure_bind,
            isGiven, pure_bind]
          rfl

theorem step_eq (ready : Ready children before)
    (shortChildren : ∀ child ∈ children, utf16Length child.text < 2 ^ 32 - 1) {piece : Piece}
    {rest : List Piece} (short : ShortOn children withMap before (piece :: rest)) :
    step withMap (children.map Strand.ofTracedText).toArray before piece =
      passed (before.step withMap (children.map Strand.ofTracedText).toArray piece) := by
  have ending : endPosition before.output = pure before.output.endPosition := by
    rw [ready.output]
    exact endPosition_ofString short.now
  rw [step, ending, pure_bind]
  cases piece with
  | copy index start stop =>
      exact copy_eq ready shortChildren fun after stepped => (short.further stepped).now
  | insert text marked => rfl

theorem run_eq (ready : Ready children before)
    (shortChildren : ∀ child ∈ children, utf16Length child.text < 2 ^ 32 - 1)
    {pieces : List Piece} (short : ShortOn children withMap before pieces) :
    pieces.foldlM (step withMap (children.map Strand.ofTracedText).toArray) before =
        passed (pieces.foldlM
          (Assembly.step withMap (children.map Strand.ofTracedText).toArray) before) ∧
      ∀ after, pieces.foldlM (Assembly.step withMap (children.map Strand.ofTracedText).toArray)
          before = .ok after →
        endPosition after.output = pure after.output.endPosition := by
  induction pieces generalizing before with
  | nil =>
      refine ⟨rfl, ?_⟩
      intro after ran
      cases ran
      rw [ready.output]
      exact endPosition_ofString short.now
  | cons piece rest ih =>
      rw [List.foldlM_cons, List.foldlM_cons, step_eq ready shortChildren short]
      constructor
      · apply passed_bind
        intro middle stepped
        exact (ih (ready.step stepped) (short.further stepped)).1
      · intro after ran
        obtain ⟨middle, stepped, ran⟩ := exists_of_bind_eq_ok ran
        exact (ih (ready.step stepped) (short.further stepped)).2 after ran

end Run

end Guarded

/-! ### All pieces -/

/-- The texts put together of more and more of the pieces are shorter than the largest word. -/
def StaysShort (children : List TracedText) (pieces : List Piece) (withMap : Bool) : Prop :=
  ∀ front, front <+: pieces → ∀ woven, assemble children front withMap = .ok woven →
    utf16Length woven.text < 2 ^ 32 - 1

instance (children : List TracedText) (pieces : List Piece) (withMap : Bool) :
    Decidable (StaysShort children pieces withMap) :=
  decidable_of_iff
    (∀ front ∈ pieces.inits, (assemble children front withMap).toOption.all fun woven =>
      decide (utf16Length woven.text < 2 ^ 32 - 1)) <| by
    simp only [StaysShort, List.mem_inits]
    refine forall_congr' fun front => imp_congr_right fun _ => ?_
    cases assemble children front withMap with
    | error cause => simp [Except.toOption]
    | ok woven => simp [Except.toOption]

/-- Nothing that assembling takes is missing, whatever the pieces and the tables of the children
are: with its guards it comes to the same text or error as without. -/
theorem assemble_guarded {children : List TracedText} {pieces : List Piece} {withMap : Bool}
    (shortChildren : ∀ child ∈ children, utf16Length child.text < 2 ^ 32 - 1)
    (stays : StaysShort children pieces withMap) :
    (Guarded.assemble children pieces withMap).run = some (assemble children pieces withMap) := by
  have ready : Guarded.Ready children { links := Array.replicate children.length none } :=
    ⟨rfl, Array.size_replicate⟩
  have short : Guarded.ShortOn children withMap
      { links := Array.replicate children.length none } pieces := by
    intro front isFront after ran
    obtain ⟨woven, assembled, sameText⟩ := exists_assemble_of_run ran
    rw [← sameText]
    exact stays front isFront woven assembled
  obtain ⟨sameRun, ending⟩ := Guarded.run_eq ready shortChildren short
  change Guarded.assemble children pieces withMap = Guarded.passed _
  rw [Guarded.assemble, assemble, List.size_toArray, List.length_map, sameRun]
  apply Guarded.passed_bind
  intro assembly ran
  split
  · rw [ending assembly ran, pure_bind]
    exact Guarded.passed_bind _ fun mapping _ => rfl
  · rfl

/-- A copy from inside of a character, whose mapping points past its tables and its lines, with a
column that no longer fits a word when it is moved on; a copy that ends before it starts; and a
copy of a child that is not there. -/
theorem assemble_guarded_strays :
    let children : List TracedText :=
      [⟨"a😀b\nc", .mapped
          { segments := #[⟨⟨1, 0⟩, some ⟨0, 1, 4294967295, some 9⟩⟩, ⟨⟨1, 9⟩, some ⟨7, 1, 0, none⟩⟩]
            sources := #[⟨some "s", none⟩]
            ordered := Segment.ordered_of_firstDisorder?_eq_none _ rfl
            numbered := by decide }⟩,
        ⟨"x\ny", .own "n"⟩]
    let pieces : List Piece := [.copy 0 2 6, .insert "Q" true, .copy 1 0 3]
    ((∀ child ∈ children, utf16Length child.text < 2 ^ 32 - 1) ∧
        StaysShort children pieces true ∧
        ∃ woven, (Guarded.assemble children pieces true).run = some (.ok woven) ∧
          woven.text = "😀b\ncQx\ny" ∧
          (woven.reading? Position.first).map Mapping.Reading.trace =
            some ⟨some "s", 1, 4294967297⟩) ∧
      (Guarded.assemble children [.copy 0 6 2] true).run =
        some (.error (.outOfRange .offset 6 2)) ∧
      (Guarded.assemble children [.insert "Q" true, .copy 2 0 1] false).run =
        some (.error (.outOfRange .child 2 1)) := by
  intro children pieces
  have shortChildren : ∀ child ∈ children, utf16Length child.text < 2 ^ 32 - 1 := by
    decide +kernel
  have stays : StaysShort children pieces true := by decide +kernel
  refine ⟨⟨shortChildren, stays, ?_⟩, ?_, ?_⟩
  · rw [assemble_guarded shortChildren stays]
    have told : (assemble children pieces true).toOption.map (fun woven =>
        (woven.text, (woven.reading? Position.first).map Mapping.Reading.trace)) =
          some ("😀b\ncQx\ny", some ⟨some "s", 1, 4294967297⟩) := by decide +kernel
    cases assembled : assemble children pieces true with
    | error cause =>
        rw [assembled] at told
        cases told
    | ok woven =>
        rw [assembled] at told
        obtain ⟨isText, isTrace⟩ := Prod.mk.inj (Option.some.inj told)
        exact ⟨woven, rfl, isText, isTrace⟩
  · rw [assemble_guarded shortChildren (by decide +kernel)]
    decide +kernel
  · rw [assemble_guarded shortChildren (by decide +kernel)]
    decide +kernel

end SourceWeave
