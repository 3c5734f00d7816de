import SourceWeave.Proofs.WellFormed

/-!
Mappings by line. Collapsing keeps of every line the first segment that is traced. What has been
woven begins no line with a marker, so that this is the first segment of the line, and every line
with a segment keeps one.
-/

set_option autoImplicit false

namespace SourceWeave

namespace Segment

/-- What a line keeps is its first traced segment; a line that has its segment keeps no other. -/
theorem filter_firstTracedFrom {held : Option Nat} {segments : List Segment}
    (ordered : Ordered segments)
    (behind : ∀ line, held = some line → ∀ segment ∈ segments, line ≤ segment.position.line)
    (line : Nat) :
    (firstTracedFrom held segments).filter (fun segment => decide (segment.position.line = line)) =
      if held = some line then []
      else
        ((segments.filter fun segment => decide (segment.position.line = line)).findSome?
          Segment.origin).toList.map fun location =>
            traced ⟨line, 0⟩ location.source location.line 0 := by
  induction segments generalizing held with
  | nil => simp [firstTracedFrom]
  | cons segment rest ih =>
      have restOrdered := (List.pairwise_cons.mp ordered).2
      have restBehind (given : Nat) (isHeld : held = some given) (other : Segment)
          (inRest : other ∈ rest) : given ≤ other.position.line :=
        behind given isHeld other (List.mem_cons_of_mem segment inRest)
      have ownBehind (given : Nat) (isOwn : some segment.position.line = some given)
          (other : Segment) (inRest : other ∈ rest) : given ≤ other.position.line := by
        rw [← Option.some.inj isOwn]
        exact ordered.line_le inRest
      simp only [firstTracedFrom]
      cases isOrigin : segment.origin with
      | none =>
          rw [ih restOrdered restBehind, List.filter_cons]
          split
          · rfl
          · by_cases onLine : segment.position.line = line
            · simp [onLine, isOrigin]
            · simp [onLine]
      | some location =>
          simp only
          by_cases isHeld : held = some segment.position.line
          · rw [if_pos isHeld, ih restOrdered restBehind, List.filter_cons]
            by_cases onLine : segment.position.line = line
            · rw [if_pos (isHeld.trans (congrArg some onLine)),
                if_pos (isHeld.trans (congrArg some onLine))]
            · simp [onLine]
          · rw [if_neg isHeld, List.filter_cons, ih restOrdered ownBehind, List.filter_cons]
            by_cases onLine : segment.position.line = line
            · have notHeld : held ≠ some line := fun same =>
                isHeld (same.trans (congrArg some onLine.symm))
              simp [onLine, notHeld, isOrigin, traced]
            · by_cases passed : held = some line
              · -- The line has its segment already, and all that follows is behind it.
                have before := behind line passed segment List.mem_cons_self
                have noneOnLine : rest.filter (fun other => decide (other.position.line = line)) =
                    [] := by
                  apply List.filter_eq_nil_iff.mpr
                  intro other inRest same
                  have later := ordered.line_le inRest
                  have isLine := of_decide_eq_true same
                  omega
                simp [onLine, passed, noneOnLine, traced]
              · simp [onLine, passed, traced]

end Segment

namespace Mapping

def segmentsOn (mapping : Mapping) (line : Nat) : List Segment :=
  mapping.segments.toList.filter fun segment => decide (segment.position.line = line)

theorem byLine_eq_ok {mapping lines : Mapping} (built : mapping.byLine = .ok lines) :
    lines.segments.toList = Segment.firstTracedFrom none mapping.segments.toList ∧
      lines.sources = mapping.sources ∧ lines.names = mapping.names ∧
      lines.file = mapping.file ∧ lines.sourceRoot = mapping.sourceRoot := by
  obtain ⟨sameSegments, sameSources, sameNames, sameRoot⟩ := withSegments_eq_ok built
  exact ⟨sameSegments, sameSources, sameNames, file_of_withSegments built, sameRoot⟩

theorem segmentsOn_byLine {mapping lines : Mapping} (built : mapping.byLine = .ok lines)
    (line : Nat) :
    lines.segmentsOn line = ((mapping.segmentsOn line).findSome? Segment.origin).toList.map
      fun location => Segment.traced ⟨line, 0⟩ location.source location.line 0 := by
  have noLine (given : Nat) (impossible : none = some given) (segment : Segment)
      (_ : segment ∈ mapping.segments.toList) : given ≤ segment.position.line := by
    cases impossible
  rw [segmentsOn, (byLine_eq_ok built).1, Segment.filter_firstTracedFrom mapping.ordered noLine,
    if_neg (by simp)]
  rfl

theorem WellFormed.exists_origin_of_head {mapping : Mapping} {stop : Position}
    (wellFormed : mapping.WellFormed stop) {line : Nat} {first : Segment}
    (isFirst : (mapping.segmentsOn line).head? = some first) :
    ∃ location, first.origin = some location := by
  rw [segmentsOn, List.head?_filter, List.find?_eq_some_iff_append] at isFirst
  obtain ⟨onLine, front, back, whole, others⟩ := isFirst
  have isTraced := wellFormed.firstTraced front first back whole (by
    intro earlier inFront sameLine
    have elsewhere := others earlier inFront
    rw [sameLine, of_decide_eq_true onLine] at elsewhere
    simp at elsewhere)
  cases isOrigin : first.origin with
  | none =>
      rw [Segment.isMarker, isOrigin] at isTraced
      cases isTraced
  | some location => exact ⟨location, rfl⟩

end Mapping

theorem Provenance.mapping?_eq_some_iff {provenance : Provenance} {mapping : Mapping} :
    provenance.mapping? = some mapping ↔ provenance = .mapped mapping := by
  cases provenance <;> simp [mapping?]

namespace SourceTree

variable {tree : SourceTree} {file : Option String} {text : String} {full : Mapping}

/-- Without columns a tree is rendered with the same text, and its mapping has one segment for
every line that has any: at the start of the line, to the start of the source line that the line's
first segment is traced to. Tables and file are the same. -/
theorem rendering_without_columns
    (rendered : tree.rendering { columns := true, file } = .ok ⟨text, some full⟩) :
    ∃ lines, tree.rendering { columns := false, file } = .ok ⟨text, some lines⟩ ∧
      (∀ line, full.segmentsOn line = [] → lines.segmentsOn line = []) ∧
      (∀ line first, (full.segmentsOn line).head? = some first →
        ∃ location, first.origin = some location ∧
          lines.segmentsOn line = [Segment.traced ⟨line, 0⟩ location.source location.line 0]) ∧
      lines.sources = full.sources ∧ lines.names = full.names ∧ lines.file = full.file ∧
      lines.sourceRoot = full.sourceRoot := by
  obtain ⟨woven, isWoven, sameText, sameMapping⟩ := rendering_eq_ok rfl rendered
  obtain ⟨held, isHeld, isFull⟩ := Option.map_eq_some_iff.mp sameMapping.symm
  obtain ⟨built, isBuilt⟩ := held.exists_byLine
  obtain ⟨_, sameSources, sameNames, sameFile, sameRoot⟩ := Mapping.byLine_eq_ok isBuilt
  have wellFormed : held.WellFormed (Position.first.behind woven.text.toList) := by
    have sound := meaning_delivers tree
    rw [← weave_eq_meaning] at sound
    obtain ⟨tidy, noRoot⟩ :=
      sound.of_eq_ok woven isWoven held (Provenance.mapping?_eq_some_iff.mp isHeld)
    exact Mapping.wellFormed_of_tidy tidy noRoot
  have sameSegments (line : Nat) : full.segmentsOn line = held.segmentsOn line := by
    rw [← isFull]
    rfl
  refine ⟨{ built with file := file <|> built.file }, ?_, ?_, ?_, ?_⟩
  · rw [rendering, isWoven, ok_bind, isHeld, Option.mapM_some, underOptions, if_neg (by simp),
      isBuilt, ← sameText]
    rfl
  · intro line empty
    rw [sameSegments] at empty
    change built.segmentsOn line = []
    rw [Mapping.segmentsOn_byLine isBuilt, empty]
    rfl
  · intro line first isFirst
    rw [sameSegments] at isFirst
    obtain ⟨location, isOrigin⟩ := wellFormed.exists_origin_of_head isFirst
    refine ⟨location, isOrigin, ?_⟩
    change built.segmentsOn line = _
    obtain ⟨rest, whole⟩ := List.head?_eq_some_iff.mp isFirst
    rw [Mapping.segmentsOn_byLine isBuilt, whole, List.findSome?_cons, isOrigin]
    rfl
  · rw [← isFull]
    exact ⟨sameSources, sameNames, congrArg (file <|> ·) sameFile, sameRoot⟩

theorem rendering_without_columns_moved :
    let tree : SourceTree :=
      .joined [.plain "x" none, .authored "a\n\nb" "f", .plain "c" (some "g")]
    ∃ text full lines, tree.rendering { columns := true, file := some "out" } =
        .ok ⟨text, some full⟩ ∧
      tree.rendering { columns := false, file := some "out" } = .ok ⟨text, some lines⟩ ∧
      lines.segmentsOn 1 = [Segment.traced ⟨1, 0⟩ 0 1 0] ∧ lines.segmentsOn 2 = [] ∧
      lines.segmentsOn 3 = [Segment.traced ⟨3, 0⟩ 0 3 0] ∧ lines.file = some "out" := by
  intro tree
  have succeeds : (tree.rendering { columns := true, file := some "out" }).toOption.map
      (fun rendered => rendered.mapping.map fun full =>
        (full.segmentsOn 1, full.segmentsOn 2, full.segmentsOn 3, full.file)) =
      some (some
        ([Segment.traced ⟨1, 1⟩ 0 1 0], [],
          [Segment.traced ⟨3, 0⟩ 0 3 0, Segment.traced ⟨3, 1⟩ 1 1 0], some "out")) := by
    decide +kernel
  obtain ⟨⟨text, mapping⟩, rendered, viewed⟩ := exists_of_map_toOption succeeds
  obtain ⟨full, isMapping, viewed⟩ := Option.map_eq_some_iff.mp viewed
  simp only at isMapping
  rw [isMapping] at rendered
  simp only [Prod.mk.injEq] at viewed
  obtain ⟨first, second, third, isFile⟩ := viewed
  obtain ⟨lines, collapsed, silent, kept, _, _, sameFile, _⟩ := rendering_without_columns rendered
  have keepsHead (line : Nat) (location : Location) (column : Nat) (rest : List Segment)
      (onLine : full.segmentsOn line = ⟨⟨line, column⟩, some location⟩ :: rest) :
      lines.segmentsOn line = [Segment.traced ⟨line, 0⟩ location.source location.line 0] := by
    obtain ⟨same, isOrigin, isKept⟩ := kept line _ (by rw [onLine]; rfl)
    cases isOrigin
    exact isKept
  exact ⟨text, full, lines, rendered, collapsed, keepsHead 1 _ _ _ first, silent 2 second,
    keepsHead 3 _ _ _ third, sameFile.trans isFile⟩

end SourceTree

end SourceWeave
