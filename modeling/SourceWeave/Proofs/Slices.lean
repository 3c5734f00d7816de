import SourceWeave.Proofs.GuardedReading

/-!
Slices of a text. An offset is turned into the bytes of the longest front that it leaves room for,
whether the text is ASCII, the offset starts a line, or a line has to be gone through. So slices
between offsets in order are always there, and those of neighbouring cuts make up the text.
-/

set_option autoImplicit false

namespace SourceWeave

/-- A front of the text that takes at most so many units, and the longest that does. -/
structure LongestFront (units : Nat) (text front : String) : Prop where
  begins : front.toList <+: text.toList
  fits : utf16Length front ≤ units
  longest : ∀ other : String, other.toList <+: text.toList → utf16Length other ≤ units →
    other.length ≤ front.length

namespace Utf16

theorem prefix_take {units : Nat} {front characters : List Char} (begins : front <+: characters)
    (fits : length front ≤ units) : front <+: take units characters := by
  obtain ⟨back, whole⟩ := begins
  rw [← whole, ← Nat.add_sub_cancel' fits, take_append_shift]
  exact List.prefix_append front _

end Utf16

theorem longestFront_take (units : Nat) (text : String) :
    LongestFront units text (String.ofList (Utf16.take units text.toList)) where
  begins := by
    rw [String.toList_ofList]
    exact ⟨_, Utf16.take_append_drop units text.toList⟩
  fits := by
    rw [utf16Length, String.toList_ofList]
    exact Utf16.length_take_le units text.toList
  longest := by
    intro other begins fits
    rw [← String.length_toList, ← String.length_toList, String.toList_ofList]
    exact (Utf16.prefix_take begins fits).length_le

namespace IndexedText

theorem exists_slice (text : String) {start stop : Nat} (inOrder : start ≤ stop)
    (within : stop ≤ utf16Length text) :
    ∃ piece, (ofString text).slice start stop = .ok piece ∧
      Utf16.take start text.toList ++ piece.toList = Utf16.take stop text.toList := by
  refine ⟨_, slice_eq_ok_iff.mpr ⟨⟨inOrder, within⟩, rfl⟩, ?_⟩
  rw [String.toList_ofList, Utf16.take_append_between inOrder]

def slices (whole : IndexedText) (cuts : List Nat) : Except MappingError (List String) :=
  (cuts.zip cuts.tail).mapM fun cut => whole.slice cut.1 cut.2

theorem exists_slices {text : String} {start stop : Nat} {cuts : List Nat}
    (inOrder : (start :: cuts).Pairwise fun earlier later => earlier ≤ later)
    (last : (start :: cuts).getLast? = some stop) (within : stop ≤ utf16Length text) :
    ∃ pieces, (ofString text).slices (start :: cuts) = .ok pieces ∧
      Utf16.take start text.toList ++ (String.join pieces).toList =
        Utf16.take stop text.toList := by
  induction cuts generalizing start with
  | nil =>
      rw [List.getLast?_singleton, Option.some.injEq] at last
      refine ⟨[], rfl, ?_⟩
      rw [last]
      exact List.append_nil _
  | cons next rest ih =>
      obtain ⟨first, restInOrder⟩ := List.pairwise_cons.mp inOrder
      rw [List.getLast?_cons_cons] at last
      obtain ⟨pieces, areSlices, toLast⟩ := ih restInOrder last
      have nextWithin : next ≤ stop := by
        rcases List.mem_cons.mp (List.mem_of_getLast? last) with isNext | inRest
        · exact Nat.le_of_eq isNext.symm
        · exact (List.pairwise_cons.mp restInOrder).1 stop inRest
      obtain ⟨piece, isSlice, toNext⟩ :=
        exists_slice text (first next List.mem_cons_self) (Nat.le_trans nextWithin within)
      refine ⟨piece :: pieces, ?_, ?_⟩
      · change ((start, next) :: (next :: rest).zip rest).mapM _ = _
        rw [List.mapM_cons, isSlice, ok_bind]
        change (ofString text).slices (next :: rest) >>= _ = _
        rw [areSlices]
        rfl
      · rw [String.join_cons, String.toList_append, ← List.append_assoc, toNext, toLast]

/-- The bytes in front of an offset are those of the longest front that takes no more units. So a
slice is there between any two offsets in order, and slices between cuts in order, from zero to the
length, make up the text, wherever the cuts fall. No guard fails on the way. -/
structure MadeUpOfSlices (text : String) (whole : IndexedText) : Prop where
  front : ∀ offset, offset ≤ utf16Length text → ∃ front, LongestFront offset text front ∧
    whole.byteOffset offset = .ok front.utf8ByteSize
  slice : ∀ start stop, start ≤ stop → stop ≤ utf16Length text →
    ∃ piece, whole.slice start stop = .ok piece
  together : ∀ cuts : List Nat, cuts.head? = some 0 → cuts.getLast? = some (utf16Length text) →
    cuts.Pairwise (· ≤ ·) →
      ∃ pieces, whole.slices cuts = .ok pieces ∧ String.join pieces = text
  guardedBytes : ∀ offset,
    Guarded.byteOffset whole offset = Guarded.passed (whole.byteOffset offset)
  guardedSlice : ∀ start stop,
    Guarded.slice whole start stop = Guarded.passed (whole.slice start stop)

theorem slices_make_up (text : String) : MadeUpOfSlices text (ofString text) where
  front := by
    intro offset within
    refine ⟨_, longestFront_take offset text, ?_⟩
    rw [utf8ByteSize_eq, String.toList_ofList]
    exact byteOffset_eq within
  slice := by
    intro start stop inOrder within
    obtain ⟨piece, isSlice, _⟩ := exists_slice text inOrder within
    exact ⟨piece, isSlice⟩
  together := by
    intro cuts first last inOrder
    obtain ⟨rest, fromZero⟩ := List.head?_eq_some_iff.mp first
    subst fromZero
    obtain ⟨pieces, areSlices, joined⟩ := exists_slices inOrder last (Nat.le_refl _)
    refine ⟨pieces, areSlices, ?_⟩
    rw [Utf16.take_zero, List.nil_append, utf16Length,
      Utf16.take_of_length_le (Nat.le_refl _)] at joined
    exact String.toList_inj.mp joined
  guardedBytes := Guarded.byteOffset_ofString text
  guardedSlice := Guarded.slice_ofString text

theorem slices_make_up_pairs :
    let text := "a😀\nä😀b"
    let cuts := [0, 2, 4, 6, utf16Length text]
    cuts.Pairwise (· ≤ ·) ∧ (ofString text).slices cuts = .ok ["a", "😀\n", "ä", "😀b"] ∧
      String.join ["a", "😀\n", "ä", "😀b"] = text := by
  intro text cuts
  have inOrder : cuts.Pairwise (· ≤ ·) := by decide
  have told : (ofString text).slices cuts = .ok ["a", "😀\n", "ä", "😀b"] := by decide +kernel
  obtain ⟨pieces, areSlices, joined⟩ := (slices_make_up text).together cuts rfl rfl inOrder
  rw [told] at areSlices
  cases areSlices
  exact ⟨inOrder, told, joined⟩

end IndexedText

end SourceWeave
