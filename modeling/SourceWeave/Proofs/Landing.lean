import SourceWeave.Proofs.Assembled

/-!
Where the segments of a copy come to stand. A cut inside a character takes the whole character
along, but the places of the cut's line are told from the cut itself. Segments on that line come to
stand one column in front of their characters; all others stand where their characters do.
-/

set_option autoImplicit false

namespace SourceWeave

namespace Position

variable {characters : List Char} {start : Nat}

/-- An offset inside a character, on the line of a place. -/
def SplitBy (place : Position) (characters : List Char) (start : Nat) : Prop :=
  ¬ Utf16.Aligned characters start ∧ place.line = (ofOffset characters start).line

instance (place : Position) (characters : List Char) (start : Nat) :
    Decidable (place.SplitBy characters start) :=
  inferInstanceAs (Decidable (_ ∧ _))

theorem relocate_ofOffset {place : Position} (whole : ¬ place.SplitBy characters start)
    (target : Position) :
    place.relocate (ofOffset characters start) target =
      place.relocate (first.behind (Utf16.take start characters)) target := by
  by_cases aligned : Utf16.Aligned characters start
  · rw [ofOffset_of_aligned aligned]
  · have otherLine : place.line ≠ (ofOffset characters start).line :=
      fun sameLine => whole ⟨aligned, sameLine⟩
    rw [relocate, relocate, if_neg otherLine, ← ofOffset_line, if_neg otherLine]

/-- A place that is split by the cut is moved to one column less. -/
theorem relocate_ofOffset_of_split {place : Position} (split : place.SplitBy characters start)
    (within : start ≤ Utf16.length characters) (behind : ofOffset characters start < place)
    (target : Position) :
    (place.relocate (ofOffset characters start) target).line =
        (place.relocate (first.behind (Utf16.take start characters)) target).line ∧
      (place.relocate (ofOffset characters start) target).column + 1 =
        (place.relocate (first.behind (Utf16.take start characters)) target).column := by
  obtain ⟨notAligned, sameLine⟩ := split
  have shorter := Utf16.length_take_le start characters
  have atMostOne := Utf16.le_length_take_succ within
  have late : (ofOffset characters start).column =
      (first.behind (Utf16.take start characters)).column + 1 := by
    unfold Utf16.Aligned at notAligned
    rw [ofOffset]
    simp only
    omega
  have onLine : place.line = (first.behind (Utf16.take start characters)).line := sameLine
  rw [lt_iff] at behind
  constructor
  · rw [relocate_line, relocate_line, if_pos sameLine, if_pos onLine]
  · rw [relocate_column, relocate_column, if_pos sameLine, if_pos onLine]
    omega

end Position

section Around

variable {characters lead trail : List Char} {character : Char} {start stop : Nat}
  (whole : characters = lead ++ character :: trail)

include whole

theorem Utf16.take_length_lead : take (length lead) characters = lead := by
  rw [whole, take_length_append]

theorem Utf16.take_append_between_split (inside : start ≤ length lead) :
    take start characters ++ between start (length lead) characters = lead := by
  rw [take_append_between inside, take_length_lead whole]

theorem Utf16.exists_between_eq (inside : start ≤ length lead)
    (covered : length lead + width character ≤ stop) :
    ∃ rest, between start stop characters =
      between start (length lead) characters ++ character :: rest := by
  have toLead := take_append_between_split whole inside
  have toStop := take_append_between (by omega : start ≤ stop) characters
  obtain ⟨further, isStop⟩ := Nat.exists_eq_add_of_le covered
  have upTo : length lead + width character = length (lead ++ [character]) := by simp
  have taken : take stop characters = lead ++ character :: take further trail := by
    rw [whole, isStop, upTo, List.append_cons lead character trail, take_append_shift,
      List.append_assoc, List.singleton_append]
  refine ⟨take further trail, ?_⟩
  have joined : take start characters ++ between start stop characters =
      take start characters ++
        (between start (length lead) characters ++ character :: take further trail) := by
    rw [toStop, taken, ← List.append_assoc, toLead]
  exact List.append_cancel_left joined

theorem Position.ofOffset_length : ofOffset characters (Utf16.length lead) = first.behind lead := by
  have taken := Utf16.take_length_lead whole
  have aligned : Utf16.Aligned characters (Utf16.length lead) := congrArg Utf16.length taken
  rw [ofOffset_of_aligned aligned, taken]

theorem Position.ofOffset_lt_behind (inside : start < Utf16.length lead) :
    ofOffset characters start < first.behind lead := by
  rw [← ofOffset_length whole]
  apply ofOffset_lt_ofOffset inside
  rw [whole, Utf16.length_append]
  exact Nat.le_add_right _ _

/-- The place of a character is moved to where a copy takes the character, or to one column less
if the cut splits a character of its line. -/
theorem Position.relocate_behind_ofOffset (inside : start < Utf16.length lead)
    (target : Position) :
    (¬ (first.behind lead).SplitBy characters start →
        (first.behind lead).relocate (ofOffset characters start) target =
          target.behind (Utf16.between start (Utf16.length lead) characters)) ∧
      ((first.behind lead).SplitBy characters start →
        ((first.behind lead).relocate (ofOffset characters start) target).line =
            (target.behind (Utf16.between start (Utf16.length lead) characters)).line ∧
          ((first.behind lead).relocate (ofOffset characters start) target).column + 1 =
            (target.behind (Utf16.between start (Utf16.length lead) characters)).column) := by
  have landed := relocate_behind_take (Nat.le_of_lt inside) characters target
  rw [Utf16.take_length_lead whole] at landed
  rw [← landed]
  constructor
  · intro notSplit
    exact relocate_ofOffset notSplit target
  · intro split
    have within : start ≤ Utf16.length characters := by
      rw [whole, Utf16.length_append]
      omega
    exact relocate_ofOffset_of_split split within (ofOffset_lt_behind whole inside) target

end Around

/-! ### One copy -/

namespace Assembly.Copied

variable {children : List TracedText} {before after : Assembly} {child : TracedText}
  {links : Links} {index start stop : Nat} {lead trail : List Char} {character : Char}
  (copied : Copied child links index start stop before after) (coherent : Coherent children before)
  (whole : child.text.toList = lead ++ character :: trail) (inside : start < Utf16.length lead)
  (covered : Utf16.length lead + Utf16.width character ≤ stop)

include copied coherent whole inside covered

theorem relocate_lt_endPosition :
    (Position.first.behind lead).relocate (Position.ofOffset child.text.toList start)
      before.output.endPosition < after.output.endPosition := by
  obtain ⟨atCharacter, inFront⟩ :=
    Position.relocate_behind_ofOffset whole inside before.output.endPosition
  obtain ⟨rest, taken⟩ := Utf16.exists_between_eq whole (Nat.le_of_lt inside) covered
  rw [copied.endPosition_eq coherent, taken, Position.behind_append]
  refine Position.lt_of_le_of_lt ?_ (Position.lt_behind _ (List.cons_ne_nil character rest))
  by_cases split : (Position.first.behind lead).SplitBy child.text.toList start
  · obtain ⟨sameLine, nextColumn⟩ := inFront split
    rw [Position.le_iff]
    omega
  · rw [atCharacter split]
    exact Position.le_refl _

theorem reading?_relocate :
    after.reading? ((Position.first.behind lead).relocate
        (Position.ofOffset child.text.toList start) before.output.endPosition) =
      child.reading? (Position.first.behind lead) := by
  have behindStart := Position.ofOffset_lt_behind whole inside
  have fromStart := Position.le_of_lt behindStart
  have back := Position.relocate_back fromStart before.output.endPosition
  have beforeStop : Position.first.behind lead < Position.ofOffset child.text.toList stop := by
    have wide := Utf16.width_pos character
    rw [← Position.ofOffset_length whole]
    exact Position.ofOffset_lt_ofOffset (by omega) copied.within
  rw [copied.reading?_of_between coherent (Position.target_le_relocate _ _ _ fromStart)
      (copied.relocate_lt_endPosition coherent whole inside covered) (by rwa [back]),
    back, Mapping.Reading.copiedFrom_of_lt behindStart, Option.map_id]
  rfl

end Assembly.Copied

/-! ### All pieces -/

section Assemble

variable {children : List TracedText} {front back : List Piece} {index start stop : Nat}
  {child woven : TracedText} {lead trail : List Char} {character : Char}
  (assembled : assemble children (front ++ .copy index start stop :: back) true = .ok woven)
  (isChild : children[index]? = some child)
  (whole : child.text.toList = lead ++ character :: trail) (inside : start < Utf16.length lead)
  (covered : Utf16.length lead + Utf16.width character ≤ stop)

include assembled isChild whole inside covered

theorem exists_characters_of_assemble :
    ∃ rest, woven.text.toList = front.flatMap (Piece.characters children) ++
      Utf16.between start (Utf16.length lead) child.text.toList ++ character :: rest := by
  obtain ⟨rest, taken⟩ := Utf16.exists_between_eq whole (Nat.le_of_lt inside) covered
  have copied : Piece.characters children (.copy index start stop) =
      Utf16.between start stop child.text.toList := by
    rw [Piece.characters, isChild, Option.elim_some]
  refine ⟨rest ++ back.flatMap (Piece.characters children), ?_⟩
  rw [(assembled_of_assemble assembled).characters, List.flatMap_append, List.flatMap_cons,
    copied, taken, List.append_assoc, List.append_assoc, List.cons_append]

theorem exists_reading_of_assemble (isTracked : child.provenance.isTracked = true) :
    ∃ mapping, woven.provenance = .mapped mapping ∧
      mapping.reading? ((Position.first.behind lead).relocate
          (Position.ofOffset child.text.toList start)
          (Position.first.behind (front.flatMap (Piece.characters children)))) =
        child.reading? (Position.first.behind lead) := by
  obtain ⟨final, ran, assembled⟩ := exists_of_bind_eq_ok assembled
  rw [List.size_toArray, List.length_map] at ran
  have initial := Assembly.coherent_initial children
  have coherentFinal := initial.run ran
  have extended := initial.extended_run ran
  -- The run is cut in three: what lands in front of the copy, the copy, and what lands behind it.
  rw [List.foldlM_append] at ran
  obtain ⟨before, frontRan, ran⟩ := exists_of_bind_eq_ok ran
  rw [List.foldlM_cons] at ran
  obtain ⟨after, stepped, backRan⟩ := exists_of_bind_eq_ok ran
  have coherent := initial.run frontRan
  have coherentAfter := coherent.step stepped
  obtain ⟨other, links, isOther, copied, _⟩ := Assembly.copy_eq_ok coherent.linked stepped
  rw [isChild, Option.some.injEq] at isOther
  rw [← isOther] at copied
  have landed : before.output.endPosition =
      Position.first.behind (front.flatMap (Piece.characters children)) :=
    initial.endPosition_run frontRan
  have inAfter := copied.relocate_lt_endPosition coherent whole inside covered
  have inFinal := Position.lt_of_lt_of_le inAfter (coherentAfter.endPosition_le_of_run backRan)
  have told := copied.reading?_relocate coherent whole inside covered
  have finalTracked : final.isTracked = true := by
    have copyTracked : Piece.isTracked children (.copy index start stop) = true := by
      rw [Piece.isTracked, Piece.child?, isChild, Option.any_some, isTracked]
    rw [extended.tracked, List.any_append, List.any_cons, copyTracked]
    simp
  rw [if_pos finalTracked] at assembled
  obtain ⟨mapping, made, assembled⟩ := exists_of_bind_eq_ok assembled
  cases assembled
  refine ⟨mapping, rfl, ?_⟩
  rw [← landed, coherentFinal.reading?_mapping made inFinal,
    coherentAfter.reading?_run_of_lt backRan inAfter, told]

end Assemble

theorem Mapping.exists_standing {mapping : Mapping} {place : Position} {reading : Mapping.Reading}
    (told : mapping.reading? place = some reading) (isStanding : reading.standing.isSome = true) :
    ∃ segment ∈ mapping.segments.toList, segment.position = place ∧
      Segment.read mapping.sources mapping.names place segment = some reading := by
  obtain ⟨segment, found, isRead⟩ := Option.bind_eq_some_iff.mp told
  exact ⟨segment, (Segment.mem_of_lastCovering found).1,
    (Segment.stands_iff_of_read _ _ isRead).mp isStanding, isRead⟩

/-- Every traced segment that stands at a character behind the first of a copy is found again in
what is assembled, and says the same. It stands where its character does, or one column in front
of it if the copy starts inside a character of the same line. -/
theorem exists_segment_of_assemble {children : List TracedText} {front back : List Piece}
    {index start stop : Nat} {child woven : TracedText} {known : Mapping} {segment : Segment}
    {location : Location} {lead trail : List Char} {character : Char}
    (assembled : assemble children (front ++ .copy index start stop :: back) true = .ok woven)
    (isChild : children[index]? = some child) (isMapped : child.provenance = .mapped known)
    (member : segment ∈ known.segments.toList) (isOrigin : segment.origin = some location)
    (inTable : location.source < known.sources.size)
    (whole : child.text.toList = lead ++ character :: trail)
    (stands : segment.position = Position.first.behind lead) (inside : start < Utf16.length lead)
    (covered : Utf16.length lead + Utf16.width character ≤ stop) :
    ∃ mapping moved leadWoven trailWoven, woven.provenance = .mapped mapping ∧
      moved ∈ mapping.segments.toList ∧
      Segment.read mapping.sources mapping.names moved.position moved =
        Segment.read known.sources known.names segment.position segment ∧
      leadWoven = front.flatMap (Piece.characters children) ++
        Utf16.between start (Utf16.length lead) child.text.toList ∧
      woven.text.toList = leadWoven ++ character :: trailWoven ∧
      (¬ segment.position.SplitBy child.text.toList start →
        moved.position = Position.first.behind leadWoven) ∧
      (segment.position.SplitBy child.text.toList start →
        moved.position.line = (Position.first.behind leadWoven).line ∧
          moved.position.column + 1 = (Position.first.behind leadWoven).column) := by
  have isTracked : child.provenance.isTracked = true := by
    rw [isMapped]
    rfl
  obtain ⟨trailWoven, characters⟩ :=
    exists_characters_of_assemble assembled isChild whole inside covered
  obtain ⟨mapping, isWoven, told⟩ :=
    exists_reading_of_assemble assembled isChild whole inside covered isTracked
  obtain ⟨atCharacter, inFront⟩ := Position.relocate_behind_ofOffset whole inside
    (Position.first.behind (front.flatMap (Piece.characters children)))
  rw [← Position.behind_append] at atCharacter inFront
  have childTold : child.reading? segment.position =
      Segment.read known.sources known.names segment.position segment := by
    rw [TracedText.reading?, isMapped]
    exact Segment.reading?_position known.ordered member
  rw [← stands] at told atCharacter inFront
  have isRead : Segment.read known.sources known.names segment.position segment =
      some
        { trace := ⟨known.sources[location.source].identity, location.line,
            location.column + (segment.position.column - segment.position.column)⟩
          standing := some (location.name.bind (known.names[·]?)) } := by
    apply (Segment.read_eq_some_iff _ _).mpr
    exact ⟨location, _, isOrigin, Array.getElem?_eq_getElem inTable, by rw [if_pos rfl]⟩
  rw [childTold, isRead] at told
  obtain ⟨moved, inMapping, atPlace, same⟩ := Mapping.exists_standing told rfl
  rw [← atPlace] at atCharacter inFront same
  exact ⟨mapping, moved, _, trailWoven, isWoven, inMapping, same.trans isRead.symm, rfl,
    characters, atCharacter, inFront⟩

theorem exists_segment_of_assemble_apart :
    let known : Mapping :=
      { segments := #[⟨⟨1, 0⟩, some ⟨0, 1, 0, none⟩⟩, ⟨⟨2, 1⟩, some ⟨0, 7, 2, some 0⟩⟩]
        sources := #[⟨some "s", none⟩]
        names := #["n"]
        ordered := Segment.ordered_of_firstDisorder?_eq_none _ rfl
        numbered := by decide }
    let children : List TracedText := [⟨"x😀\nab😀", .mapped known⟩]
    let pieces : List Piece := [.insert "Q" false, .copy 0 2 7, .insert "z" true]
    ∃ woven mapping moved, assemble children pieces true = .ok woven ∧
      woven.provenance = .mapped mapping ∧ moved ∈ mapping.segments.toList ∧
      moved.position = ⟨2, 1⟩ ∧
      Segment.read mapping.sources mapping.names moved.position moved =
        some ⟨⟨some "s", 7, 2⟩, some (some "n")⟩ := by
  intro known children pieces
  have succeeds : (assemble children pieces true).isOk = true := by decide +kernel
  obtain ⟨woven, assembled⟩ := exists_of_isOk succeeds
  have isWoven : assemble children ([.insert "Q" false] ++ .copy 0 2 7 :: [.insert "z" true]) true =
      .ok woven := assembled
  have member : (⟨⟨2, 1⟩, some ⟨0, 7, 2, some 0⟩⟩ : Segment) ∈ known.segments.toList := by decide
  have whole : "x😀\nab😀".toList = ['x', '😀', '\n', 'a'] ++ 'b' :: ['😀'] := by decide
  obtain ⟨mapping, moved, leadWoven, trailWoven, isMapped, inMapping, same, isLead, _, stands, _⟩ :=
    exists_segment_of_assemble isWoven rfl rfl member rfl (by decide) whole (by decide) (by decide)
      (by decide)
  refine ⟨woven, mapping, moved, assembled, isMapped, inMapping, ?_, ?_⟩
  · rw [stands (by decide), isLead]
    decide
  · rw [same]
    decide

/-- A copy that starts inside a character of the segment's line: the text has the whole character,
and the segment stands inside of it. -/
theorem exists_segment_of_assemble_split :
    let known : Mapping :=
      { segments := #[⟨⟨1, 2⟩, some ⟨0, 1, 2, none⟩⟩]
        sources := #[⟨some "s", none⟩]
        ordered := Segment.ordered_of_firstDisorder?_eq_none _ rfl
        numbered := by decide }
    ∃ woven, assemble [⟨"😀b", .mapped known⟩] [.copy 0 1 3] true = .ok woven ∧
      woven.text = "😀b" ∧
      woven.provenance.mapping?.map (fun mapping => mapping.segments.toList.map Segment.position) =
        some [⟨1, 1⟩] := by
  intro known
  have outcome : (assemble [⟨"😀b", .mapped known⟩] [.copy 0 1 3] true).toOption.map (fun woven =>
      (woven.text, woven.provenance.mapping?.map fun mapping =>
        mapping.segments.toList.map Segment.position)) = some ("😀b", some [⟨1, 1⟩]) := by
    decide +kernel
  cases assembled : assemble [⟨"😀b", .mapped known⟩] [.copy 0 1 3] true with
  | error cause =>
      rw [assembled] at outcome
      cases outcome
  | ok woven =>
      rw [assembled] at outcome
      obtain ⟨text, positions⟩ := Prod.mk.inj (Option.some.inj outcome)
      exact ⟨woven, rfl, text, positions⟩

end SourceWeave
