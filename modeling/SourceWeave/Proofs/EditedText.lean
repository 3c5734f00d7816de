import SourceWeave.Proofs.TextAlone

/-!
The text that edits leave. The characters between the two ends of every edit are replaced, an
end inside a character standing for the start of it, and all other characters are left, each
once and in order. Copies are cut one by one, so what matters is that the cuts in front of an
edit and behind it are counted in one and the same text.
-/

set_option autoImplicit false

namespace SourceWeave

namespace Utf16

/-- How many characters stand in front of a cut. -/
def boundary (characters : List Char) (offset : Nat) : Nat :=
  (take offset characters).length

variable (characters : List Char) (offset : Nat)

theorem take_boundary : characters.take (boundary characters offset) = take offset characters := by
  have parts := congrArg (List.take (boundary characters offset))
    (take_append_drop offset characters)
  rwa [boundary, List.take_left, eq_comm] at parts

theorem drop_boundary : characters.drop (boundary characters offset) = drop offset characters := by
  have parts := congrArg (List.drop (boundary characters offset))
    (take_append_drop offset characters)
  rwa [boundary, List.drop_left, eq_comm] at parts

theorem boundary_le : boundary characters offset ≤ characters.length := by
  have parts := congrArg List.length (take_append_drop offset characters)
  rw [List.length_append] at parts
  rw [boundary]
  omega

theorem boundary_length : boundary characters (length characters) = characters.length := by
  rw [boundary, take_of_length_le (Nat.le_refl _)]

theorem boundary_zero : boundary characters 0 = 0 := by
  rw [boundary, take_zero, List.length_nil]

variable {start stop : Nat} (inOrder : start ≤ stop)

include inOrder

theorem boundary_mono : boundary characters start ≤ boundary characters stop := by
  have parts := congrArg List.length (take_append_between inOrder characters)
  rw [List.length_append] at parts
  rw [boundary, boundary]
  omega

theorem drop_take_boundary :
    (characters.take (boundary characters stop)).drop (boundary characters start) =
      between start stop characters := by
  rw [take_boundary, ← take_append_between inOrder, boundary, List.drop_left]

end Utf16

namespace Edit

/-- The character of this index stands between the edit's ends. -/
def Hits (characters : List Char) (edit : Edit) (index : Nat) : Prop :=
  Utf16.boundary characters edit.start ≤ index ∧ index < Utf16.boundary characters edit.stop

instance (characters : List Char) (edit : Edit) (index : Nat) :
    Decidable (edit.Hits characters index) :=
  inferInstanceAs (Decidable (_ ∧ _))

end Edit

namespace EditList

structure Onward (start : Nat) (edits : List Edit) : Prop where
  fromStart : ∀ edit ∈ edits, start ≤ edit.start
  forward : ∀ edit ∈ edits, edit.start ≤ edit.stop
  disjoint : edits.Pairwise fun earlier later => earlier.stop ≤ later.start

theorem onward (list : EditList) : Onward 0 list.edits :=
  ⟨fun _ _ => Nat.zero_le _, list.forward, list.disjoint⟩

namespace Onward

variable {start : Nat} {edit : Edit} {rest : List Edit} (follow : Onward start (edit :: rest))

include follow

theorem start_le : start ≤ edit.start :=
  follow.fromStart edit List.mem_cons_self

theorem start_le_stop : edit.start ≤ edit.stop :=
  follow.forward edit List.mem_cons_self

theorem tail : Onward edit.stop rest where
  fromStart := (List.pairwise_cons.mp follow.disjoint).1
  forward := fun other member => follow.forward other (List.mem_cons_of_mem edit member)
  disjoint := (List.pairwise_cons.mp follow.disjoint).2

end Onward

/-- The units that edits take away. -/
def unitsRemoved : List Edit → Nat
  | [] => 0
  | edit :: rest => (edit.stop - edit.start) + unitsRemoved rest

def unitsInserted : List Edit → Nat
  | [] => 0
  | edit :: rest => utf16Length edit.replacement + unitsInserted rest

section Applied

variable {α β : Type} (characters : List Char) (insert : Char → α)

/-- One item for each character, edited as the characters are. The last edit is made first, so
that the others find their characters where they were. -/
def applied (edits : List Edit) (items : List α) : List α :=
  edits.foldr (fun edit items =>
    items.take (Utf16.boundary characters edit.start) ++ edit.replacement.toList.map insert ++
      items.drop (Utf16.boundary characters edit.stop)) items

theorem applied_cons (edit : Edit) (rest : List Edit) (items : List α) :
    applied characters insert (edit :: rest) items =
      (applied characters insert rest items).take (Utf16.boundary characters edit.start) ++
          edit.replacement.toList.map insert ++
        (applied characters insert rest items).drop (Utf16.boundary characters edit.stop) :=
  rfl

/-- What edits leave from a cut on. -/
def stretches (items : List α) (start : Nat) : List Edit → List α
  | [] => items.drop (Utf16.boundary characters start)
  | edit :: rest =>
      (items.take (Utf16.boundary characters edit.start)).drop (Utf16.boundary characters start) ++
        (edit.replacement.toList.map insert ++ stretches items edit.stop rest)

theorem applied_eq_stretches {items : List α} (paired : items.length = characters.length)
    {start : Nat} {edits : List Edit} (follow : Onward start edits) :
    applied characters insert edits items =
      items.take (Utf16.boundary characters start) ++
        stretches characters insert items start edits := by
  induction edits generalizing start with
  | nil => exact (List.take_append_drop _ _).symm
  | cons edit rest ih =>
      have frontLength : (items.take (Utf16.boundary characters edit.stop)).length =
          Utf16.boundary characters edit.stop := by
        rw [List.length_take, paired, Nat.min_eq_left (Utf16.boundary_le characters edit.stop)]
      have toEdit := Utf16.boundary_mono characters follow.start_le
      have toStop := Utf16.boundary_mono characters follow.start_le_stop
      have front := List.take_append_drop (Utf16.boundary characters start)
        (items.take (Utf16.boundary characters edit.start))
      rw [List.take_take, Nat.min_eq_left toEdit] at front
      rw [applied_cons, ih follow.tail, List.take_append_of_le_length (by omega), List.take_take,
        Nat.min_eq_left toStop, List.drop_left' frontLength, stretches, ← List.append_assoc, front,
        List.append_assoc]

theorem map_applied (change : α → β) (edits : List Edit) (items : List α) :
    (applied characters insert edits items).map change =
      applied characters (change ∘ insert) edits (items.map change) := by
  induction edits with
  | nil => rfl
  | cons edit rest ih =>
      rw [applied_cons, applied_cons, ← ih, List.map_append, List.map_append, List.map_take,
        List.map_drop, List.map_map]

theorem mem_of_mem_applied {edits : List Edit} {items : List α} {item : α}
    (member : item ∈ applied characters insert edits items) :
    item ∈ items ∨ ∃ character, item = insert character := by
  induction edits with
  | nil => exact Or.inl member
  | cons edit rest ih =>
      rw [applied_cons] at member
      rcases List.mem_append.mp member with inFront | behind
      · rcases List.mem_append.mp inFront with inFront | inserted
        · exact ih (List.mem_of_mem_take inFront)
        · obtain ⟨character, _, isItem⟩ := List.mem_map.mp inserted
          exact Or.inr ⟨character, isItem.symm⟩
      · exact ih (List.mem_of_mem_drop behind)

end Applied

/-! ### Which characters are left -/

/-- In the result stands every character that no edit hits, once and in order; what else
stands there was inserted. -/
def Keeps (characters : List Char) (edits : List Edit) (result : List Char) : Prop :=
  ∃ marked : List (Char × Option Nat), marked.map Prod.fst = result ∧
    (∀ character index, (character, some index) ∈ marked →
      characters[index]? = some character) ∧
    marked.filterMap Prod.snd = (List.range characters.length).filter fun index =>
      ∀ edit ∈ edits, ¬ edit.Hits characters index

def numbered (characters : List Char) : List (Char × Option Nat) :=
  characters.zipIdx.map fun entry => (entry.1, some entry.2)

section Numbered

variable (characters : List Char)

theorem length_numbered : (numbered characters).length = characters.length := by
  rw [numbered, List.length_map, List.length_zipIdx]

theorem map_fst_numbered : (numbered characters).map Prod.fst = characters := by
  rw [numbered, List.map_map]
  exact List.zipIdx_map_fst 0 characters

theorem filterMap_numbered (first : Nat) {last : Nat} (within : last ≤ characters.length) :
    (((numbered characters).take last).drop first).filterMap Prod.snd =
      List.range' first (last - first) := by
  have indices : (numbered characters).map Prod.snd =
      (List.range' 0 characters.length).map some := by
    rw [numbered, List.map_map, ← List.zipIdx_map_snd 0 characters, List.map_map]
    rfl
  have shown : ((((numbered characters).take last).drop first).map Prod.snd).filterMap id =
      (((numbered characters).take last).drop first).filterMap Prod.snd := List.filterMap_map
  rw [← shown, List.map_drop, List.map_take, indices, ← List.map_take, ← List.map_drop,
    List.filterMap_map, List.take_range'_of_length_ge within, List.drop_range']
  simp

end Numbered

theorem range'_split {first second third last : Nat} (toSecond : first ≤ second)
    (toThird : second ≤ third) (toLast : third ≤ last) :
    List.range' first (last - first) = List.range' first (second - first) ++
      (List.range' second (third - second) ++ List.range' third (last - third)) := by
  have inner := List.range'_append_1 (s := second) (m := third - second) (n := last - third)
  have outer := List.range'_append_1 (s := first) (m := second - first) (n := last - second)
  rw [Nat.add_sub_of_le toThird] at inner
  rw [Nat.add_sub_of_le toSecond] at outer
  have innerLength : third - second + (last - third) = last - second := by omega
  have outerLength : second - first + (last - second) = last - first := by omega
  rw [inner, innerLength, outer, outerLength]

theorem filter_unhit {characters : List Char} {edit : Edit} {rest : List Edit} {first : Nat}
    (toEdit : first ≤ Utf16.boundary characters edit.start)
    (toStop : Utf16.boundary characters edit.start ≤ Utf16.boundary characters edit.stop)
    (behind : ∀ other ∈ rest,
      Utf16.boundary characters edit.stop ≤ Utf16.boundary characters other.start) :
    ((List.range' first (characters.length - first)).filter fun index =>
        ∀ other ∈ edit :: rest, ¬ other.Hits characters index) =
      List.range' first (Utf16.boundary characters edit.start - first) ++
        (List.range' (Utf16.boundary characters edit.stop)
          (characters.length - Utf16.boundary characters edit.stop)).filter fun index =>
            ∀ other ∈ rest, ¬ other.Hits characters index := by
  have toEnd := Utf16.boundary_le characters edit.stop
  generalize isStart : Utf16.boundary characters edit.start = editStart at *
  generalize isStop : Utf16.boundary characters edit.stop = editStop at *
  have inFront : ∀ index ∈ List.range' first (editStart - first),
      ∀ other ∈ edit :: rest, ¬ other.Hits characters index := by
    intro index member other inEdits hits
    have bounds := List.mem_range'_1.mp member
    obtain ⟨fromOther, _⟩ := hits
    rcases List.mem_cons.mp inEdits with isEdit | inRest
    · rw [isEdit, isStart] at fromOther
      omega
    · have after := behind other inRest
      omega
  have within : ∀ index ∈ List.range' editStart (editStop - editStart),
      ¬ ∀ other ∈ edit :: rest, ¬ other.Hits characters index := by
    intro index member unhit
    have bounds := List.mem_range'_1.mp member
    apply unhit edit List.mem_cons_self
    rw [Edit.Hits, isStart, isStop]
    omega
  have further : ∀ index ∈ List.range' editStop (characters.length - editStop),
      ((∀ other ∈ edit :: rest, ¬ other.Hits characters index) ↔
        ∀ other ∈ rest, ¬ other.Hits characters index) := by
    intro index member
    have bounds := List.mem_range'_1.mp member
    rw [List.forall_mem_cons, and_iff_right]
    intro hits
    obtain ⟨_, toOther⟩ := hits
    omega
  rw [range'_split toEdit toStop toEnd, List.filter_append, List.filter_append,
    List.filter_eq_self.mpr fun index member => decide_eq_true (inFront index member),
    List.filter_eq_nil_iff.mpr fun index member => by simpa using within index member,
    List.filter_congr fun index member => decide_eq_decide.mpr (further index member),
    List.nil_append]

theorem filterMap_stretches {characters : List Char} {start : Nat} {edits : List Edit}
    (follow : Onward start edits) :
    (stretches characters (fun character => (character, none)) (numbered characters) start
        edits).filterMap Prod.snd =
      (List.range' (Utf16.boundary characters start)
        (characters.length - Utf16.boundary characters start)).filter fun index =>
          ∀ edit ∈ edits, ¬ edit.Hits characters index := by
  induction edits generalizing start with
  | nil =>
      have shown := filterMap_numbered characters (Utf16.boundary characters start)
        (Nat.le_refl characters.length)
      rw [← length_numbered, List.take_length, length_numbered] at shown
      rw [stretches, shown, eq_comm, List.filter_eq_self]
      intro index _
      simp
  | cons edit rest ih =>
      have toEdit := Utf16.boundary_mono characters follow.start_le
      have toStop := Utf16.boundary_mono characters follow.start_le_stop
      have toEnd := Utf16.boundary_le characters edit.start
      have behind : ∀ other ∈ rest, Utf16.boundary characters edit.stop ≤
          Utf16.boundary characters other.start :=
        fun other member => Utf16.boundary_mono characters (follow.tail.fromStart other member)
      rw [stretches, List.filterMap_append, List.filterMap_append, ih follow.tail,
        filterMap_numbered characters _ toEnd, filter_unhit toEdit toStop behind]
      simp [List.filterMap_map]

theorem length_stretches {characters : List Char} {start : Nat} {edits : List Edit}
    (follow : Onward start edits) (startAligned : Utf16.Aligned characters start)
    (aligned : ∀ edit ∈ edits, edit.Aligned characters) :
    Utf16.length (stretches characters id characters start edits) + start + unitsRemoved edits =
      Utf16.length characters + unitsInserted edits := by
  induction edits generalizing start with
  | nil =>
      have parts := congrArg Utf16.length (Utf16.take_append_drop start characters)
      rw [Utf16.length_append, startAligned] at parts
      rw [stretches, Utf16.drop_boundary, unitsRemoved, unitsInserted]
      omega
  | cons edit rest ih =>
      obtain ⟨editStart, editStop⟩ := aligned edit List.mem_cons_self
      have toEdit := follow.start_le
      have toStop := follow.start_le_stop
      have further := ih follow.tail editStop
        fun other member => aligned other (List.mem_cons_of_mem edit member)
      rw [stretches, Utf16.drop_take_boundary characters toEdit, List.map_id, Utf16.length_append,
        Utf16.length_append, Utf16.length_between toEdit startAligned editStart, unitsRemoved,
        unitsInserted, utf16Length]
      omega

theorem applied_eq_stretches_zero {α : Type} {characters : List Char} (insert : Char → α)
    {items : List α} (paired : items.length = characters.length) (list : EditList) :
    applied characters insert list.edits items =
      stretches characters insert items 0 list.edits := by
  rw [applied_eq_stretches characters insert paired list.onward, Utf16.boundary_zero,
    List.take_zero, List.nil_append]

theorem keeps_applied (characters : List Char) (list : EditList) :
    Keeps characters list.edits (applied characters id list.edits characters) := by
  refine ⟨applied characters (fun character => (character, none)) list.edits (numbered characters),
    ?_, ?_, ?_⟩
  · rw [map_applied, map_fst_numbered]
    rfl
  · intro character index member
    rcases mem_of_mem_applied _ _ member with inText | inserted
    · obtain ⟨entry, inZip, isEntry⟩ := List.mem_map.mp inText
      cases isEntry
      exact List.mk_mem_zipIdx_iff_getElem?.mp inZip
    · obtain ⟨_, impossible⟩ := inserted
      cases impossible
  · rw [applied_eq_stretches_zero _ (length_numbered characters),
      filterMap_stretches list.onward,
      Utf16.boundary_zero, Nat.sub_zero, List.range_eq_range']

theorem flatMap_characters_piecesFrom {child : TracedText} {start : Nat} {edits : List Edit}
    (follow : Onward start edits) (startWithin : start ≤ utf16Length child.text)
    (within : ∀ edit ∈ edits, edit.stop ≤ utf16Length child.text) :
    (piecesFrom start (utf16Length child.text) edits).flatMap (Piece.characters [child]) =
      stretches child.text.toList id child.text.toList start edits := by
  induction edits generalizing start with
  | nil =>
      have whole := Utf16.drop_take_boundary child.text.toList startWithin
      rw [utf16Length, Utf16.boundary_length, List.take_length] at whole
      rw [stretches, whole]
      exact List.append_nil _
  | cons edit rest ih =>
      have further := ih follow.tail (within edit List.mem_cons_self)
        fun other member => within other (List.mem_cons_of_mem edit member)
      rw [piecesFrom, List.flatMap_cons, List.flatMap_cons, further, stretches, List.map_id,
        Utf16.drop_take_boundary _ follow.start_le]
      rfl

end EditList

namespace SourceTree

variable {child tree : SourceTree} {given : List Edit} {text : String}

theorem toList_of_weaveEdited {withMap : Bool} {base woven : TracedText} {list : EditList}
    (within : ∀ edit ∈ list.edits, edit.stop ≤ utf16Length base.text)
    (edited : weaveEdited withMap base list = .ok woven) :
    woven.text.toList =
      EditList.applied base.text.toList id list.edits base.text.toList := by
  have seenWithin : ∀ edit ∈ list.edits, edit.stop ≤ utf16Length (base.seen withMap).text := within
  rw [weaveEdited_eq_seen, weaveEdited_eq true seenWithin] at edited
  rw [(assembled_of_assemble edited).characters,
    EditList.flatMap_characters_piecesFrom list.onward (Nat.zero_le _) seenWithin,
    EditList.applied_eq_stretches_zero id rfl]
  rfl

/-- The edited text is there, alone or with a mapping. Whole edits change its length by what
they take away and what they bring. -/
theorem edit_text (accepted : child.edit given = .ok tree) (childText : child.text = .ok text)
    (within : ∀ edit ∈ given, edit.stop ≤ utf16Length text) :
    ∃ edits result, edits = EditList.applicationOrder given ∧ tree.text = .ok result ∧
      (∀ withMap woven, tree.weave withMap = .ok woven → woven.text = result) ∧
      result.toList = EditList.applied text.toList id edits text.toList ∧
      EditList.Keeps text.toList edits result.toList ∧
      ((∀ edit ∈ edits, edit.Aligned text.toList) →
        utf16Length result + EditList.unitsRemoved edits =
          utf16Length text + EditList.unitsInserted edits) := by
  obtain ⟨list, inOrder, isTree⟩ := edit_eq_ok_iff.mp accepted
  obtain ⟨woven, isWoven, isText⟩ := text_eq_ok_iff.mp childText
  subst isTree isText
  have listWithin : ∀ edit ∈ list.edits, edit.stop ≤ utf16Length woven.text := by
    intro edit member
    exact within edit (EditList.mem_applicationOrder.mp (inOrder ▸ member))
  obtain ⟨edited, isEdited⟩ := failure?_eq_none_iff.mp (failure?_weaveEdited_unseen listWithin)
  have isMeaning : meaning false (.edited child list) = .ok edited := by
    rw [meaning, isWoven, ok_bind, isEdited]
  have left := toList_of_weaveEdited listWithin isEdited
  refine ⟨list.edits, edited.text, inOrder, text_eq_ok_iff.mpr ⟨edited, isMeaning, rfl⟩, ?_, left,
    ?_, ?_⟩
  · intro withMap other isOther
    rw [weave_eq_meaning] at isOther
    cases withMap with
    | false => rw [Except.ok.inj (isOther.symm.trans isMeaning)]
    | true =>
        obtain ⟨unseen, isUnseen, same⟩ := exists_meaning_unseen _ isOther
        rw [← same, Except.ok.inj (isUnseen.symm.trans isMeaning)]
  · rw [left]
    exact EditList.keeps_applied _ list
  · intro aligned
    have lengths := EditList.length_stretches list.onward (Utf16.aligned_zero _) aligned
    rw [← EditList.applied_eq_stretches_zero id rfl, ← left] at lengths
    exact lengths

theorem edit_text_inside_pair :
    let child : SourceTree := .authored "a😀b\nc" "i"
    (∃ tree, child.edit [⟨5, 5, "é"⟩, ⟨2, 3, "XY"⟩] = .ok tree ∧ tree.text = .ok "aXYb\néc" ∧
        EditList.Keeps "a😀b\nc".toList [⟨2, 3, "XY"⟩, ⟨5, 5, "é"⟩] "aXYb\néc".toList) ∧
      ∃ tree result, child.edit [⟨1, 3, "XYZ"⟩, ⟨5, 6, ""⟩] = .ok tree ∧
        tree.text = .ok result ∧ utf16Length result + 3 = 6 + 3 := by
  intro child
  have childText : child.text = .ok "a😀b\nc" := by decide +kernel
  constructor
  · have succeeds : (child.edit [⟨5, 5, "é"⟩, ⟨2, 3, "XY"⟩]).isOk = true := by decide +kernel
    obtain ⟨tree, accepted⟩ := exists_of_isOk succeeds
    obtain ⟨edits, result, isEdits, isText, _, isApplied, keeps, _⟩ :=
      edit_text accepted childText (by decide +kernel)
    have inOrder : edits = [⟨2, 3, "XY"⟩, ⟨5, 5, "é"⟩] := by
      rw [isEdits]
      decide +kernel
    have isResult : result = "aXYb\néc" := by
      rw [← String.toList_inj, isApplied, inOrder]
      decide +kernel
    rw [isResult] at isText keeps
    rw [inOrder] at keeps
    exact ⟨tree, accepted, isText, keeps⟩
  · have succeeds : (child.edit [⟨1, 3, "XYZ"⟩, ⟨5, 6, ""⟩]).isOk = true := by decide +kernel
    obtain ⟨tree, accepted⟩ := exists_of_isOk succeeds
    obtain ⟨edits, result, isEdits, isText, _, _, _, lengths⟩ :=
      edit_text accepted childText (by decide +kernel)
    have inOrder : edits = [⟨1, 3, "XYZ"⟩, ⟨5, 6, ""⟩] := by
      rw [isEdits]
      decide +kernel
    rw [inOrder] at lengths
    exact ⟨tree, result, accepted, isText, lengths (by decide +kernel)⟩

end SourceTree

end SourceWeave
