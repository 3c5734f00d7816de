import SourceWeave.Proofs.Respelling

/-!
Numbers of sixty-four bits side by side. The digits of a number say where they end, so that what is
written of numbers tells them apart, also of the least one, of which the word keeps the sign alone.
They are read back as far as they have thirty-two bits. A larger one is refused by its digits if
there are more than seven, and by its magnitude if there are not.
-/

set_option autoImplicit false

namespace SourceWeave.Vlq

def least : Int := -0x8000000000000000

def FitsWord (value : Int) : Prop :=
  least ≤ value ∧ value < 0x8000000000000000

instance (value : Int) : Decidable (FitsWord value) :=
  inferInstanceAs (Decidable (_ ∧ _))

theorem word_least : word least = 1 := by
  decide

theorem word_eq {value : Int} (fits : FitsWord value) (notLeast : value ≠ least) :
    word value = 2 * value.natAbs + if value < 0 then 1 else 0 := by
  unfold FitsWord at fits
  unfold least at fits notLeast
  have whole : 2 * value.natAbs % 0x10000000000000000 = 2 * value.natAbs :=
    Nat.mod_eq_of_lt (by omega)
  rw [word, whole]

theorem signed_word_of_ne_least {value : Int} (fits : FitsWord value) (notLeast : value ≠ least) :
    signed (word value) = value := by
  rw [word_eq fits notLeast, signed]
  by_cases negative : value < 0
  · rw [if_pos negative, if_pos (by omega)]
    omega
  · rw [if_neg negative, if_neg (by omega)]
    omega

theorem word_injective {left right : Int} (leftFits : FitsWord left) (rightFits : FitsWord right)
    (same : word left = word right) : left = right := by
  -- The word of the least number is that of a zero with a sign, which no other number has.
  have apart {value : Int} (fits : FitsWord value) (notLeast : value ≠ least) :
      word value ≠ 1 := by
    rw [word_eq fits notLeast]
    split <;> omega
  by_cases leftLeast : left = least
  · by_cases rightLeast : right = least
    · rw [leftLeast, rightLeast]
    · rw [leftLeast, word_least] at same
      exact absurd same.symm (apart rightFits rightLeast)
  · by_cases rightLeast : right = least
    · rw [rightLeast, word_least] at same
      exact absurd same (apart leftFits leftLeast)
    · rw [← signed_word_of_ne_least leftFits leftLeast, same,
        signed_word_of_ne_least rightFits rightLeast]

/-! ### Digits that say where they end -/

theorem Run.append_inj {left right leftRest rightRest : List Char} {word other : Nat}
    (leftRun : Run left word) (rightRun : Run right other)
    (same : left ++ leftRest = right ++ rightRest) : word = other ∧ leftRest = rightRest := by
  have sameGroups := congrArg groups same
  rw [leftRun.groups_append, rightRun.groups_append] at sameGroups
  have sameGroup := (List.cons.inj sameGroups).1
  rw [sameGroup] at same leftRun
  exact ⟨leftRun.unique rightRun, List.append_cancel_left same⟩

theorem encodeAll_injective {left right : List Int} (leftFit : ∀ value ∈ left, FitsWord value)
    (rightFit : ∀ value ∈ right, FitsWord value) (same : encodeAll left = encodeAll right) :
    left = right := by
  induction left generalizing right with
  | nil =>
      cases right with
      | nil => rfl
      | cons value rest =>
          have noDigits := List.append_eq_nil_iff.mp same.symm
          exact absurd noDigits.1 (encode_ne_nil value)
  | cons first rest ih =>
      cases right with
      | nil =>
          have noDigits := List.append_eq_nil_iff.mp same
          exact absurd noDigits.1 (encode_ne_nil first)
      | cons other others =>
          obtain ⟨sameWord, sameRest⟩ := (run_digits (word first)).append_inj
            (run_digits (word other)) same
          have sameFirst := word_injective (leftFit first List.mem_cons_self)
            (rightFit other List.mem_cons_self) sameWord
          have sameOthers := ih (fun value member => leftFit value (List.mem_cons_of_mem _ member))
            (fun value member => rightFit value (List.mem_cons_of_mem _ member)) sameRest
          rw [sameFirst, sameOthers]

/-! ### Reading -/

/-- What is read of a number: the least one is taken for a zero with a sign. -/
def readBack (value : Int) : Int :=
  if value = least then 0 else value

def TooLarge (value : Int) : Prop :=
  value ≠ least ∧ limit < value.natAbs

instance (value : Int) : Decidable (TooLarge value) :=
  inferInstanceAs (Decidable (_ ∧ _))

section Reading

variable (segment : String)

/-- A group of more digits than there is room for is refused at the first one too many. -/
theorem Run.foldlM_read_of_long {group : List Char} {word : Nat} (run : Run group word)
    (values : Array Int) {bits shift : Nat} (noRoom : 35 < shift + 5 * group.length) :
    group.foldlM (Reading.read segment) { values, bits, shift } = .error (.overflow segment) := by
  induction run generalizing bits shift with
  | @last character value isDigit ends =>
      rw [List.length_singleton] at noRoom
      rw [List.foldlM_cons, Reading.read, isDigit]
      simp only [if_pos (by omega : 30 < shift)]
      rfl
  | @further character value rest word isDigit goesOn run ih =>
      rw [List.length_cons] at noRoom
      rw [List.foldlM_cons, Reading.read, isDigit]
      by_cases full : 30 < shift
      · simp only [if_pos full]
        rfl
      · simp only [if_neg full, if_neg (by omega : ¬ value < 32)]
        exact ih (by omega)

theorem foldlM_read_encode {value : Int} (fits : FitsWord value) (held : Array Int) :
    (encode value).foldlM (Reading.read segment) { values := held } =
      if TooLarge value then .error (.overflow segment)
      else .ok { values := held.push (readBack value) } := by
  have run := run_digits (word value)
  by_cases long : 35 < 0 + 5 * (encode value).length
  · have large : TooLarge value := by
      apply Classical.byContradiction
      intro notLarge
      have short : word value < 32 ^ 7 := by
        by_cases isLeast : value = least
        · rw [isLeast]
          decide
        · exact word_lt (Nat.not_lt.mp fun above => notLarge ⟨isLeast, above⟩)
      have digitCount := length_digits_le short
      rw [encode] at long
      omega
    rw [if_pos large]
    exact run.foldlM_read_of_long segment held long
  · have signedWord : signed (word value) = readBack value := by
      unfold readBack
      split
      · rename_i isLeast
        rw [isLeast]
        decide
      · rename_i notLeast
        exact signed_word_of_ne_least fits notLeast
    have limited : limit < (readBack value).natAbs ↔ TooLarge value := by
      unfold readBack TooLarge
      split
      · rename_i isLeast
        simp [isLeast]
      · rename_i notLeast
        simp [notLeast]
    change (digits (word value)).foldlM _ _ = _
    rw [run.foldlM_read segment held (Nat.not_lt.mp long), Nat.zero_add, Nat.shiftLeft_zero,
      Reading.close, signedWord]
    simp only [limited]

theorem foldlM_read_encodeAll {values : List Int} (fit : ∀ value ∈ values, FitsWord value)
    (held : Array Int) :
    (encodeAll values).foldlM (Reading.read segment) { values := held } =
      if ∃ value ∈ values, TooLarge value then .error (.overflow segment)
      else .ok { values := held ++ values.map readBack } := by
  induction values generalizing held with
  | nil => simp [encodeAll, pure, Except.pure]
  | cons value rest ih =>
      have isFirst := foldlM_read_encode segment (fit value List.mem_cons_self) held
      have isRest := ih (fun other member => fit other (List.mem_cons_of_mem value member))
        (held.push (readBack value))
      change (encode value ++ encodeAll rest).foldlM _ _ = _
      rw [List.foldlM_append, isFirst]
      by_cases large : TooLarge value
      · simp only [List.exists_mem_cons_iff, large, true_or, if_true]
        rfl
      · simp only [List.exists_mem_cons_iff, large, false_or, if_false, ok_bind, isRest]
        simp

end Reading

theorem decode_encodeAll_eq {values : List Int} (fit : ∀ value ∈ values, FitsWord value) :
    decode (String.ofList (encodeAll values)) =
      if ∃ value ∈ values, TooLarge value then
        .error (.overflow (String.ofList (encodeAll values)))
      else .ok (values.map readBack) := by
  rw [decode, String.toList_ofList, foldlM_read_encodeAll _ fit]
  split
  · rfl
  · simp [ok_bind, Reading.pending, pure, Except.pure]

/-- Numbers side by side are decodable in one way. They are read back if they have thirty-two bits;
one that has more, the least of sixty-four aside, is refused; and whatever they are, no other
numbers of sixty-four bits are written alike. -/
theorem encodeAll_decodable {values : List Int} (fit : ∀ value ∈ values, FitsWord value) :
    ((∀ value ∈ values, value.natAbs ≤ limit) →
        decode (String.ofList (encodeAll values)) = .ok values) ∧
      ((∃ value ∈ values, value ≠ least ∧ limit < value.natAbs) →
        decode (String.ofList (encodeAll values)) =
          .error (.overflow (String.ofList (encodeAll values)))) ∧
      ∀ others : List Int, (∀ value ∈ others, FitsWord value) → others ≠ values →
        encodeAll others ≠ encodeAll values := by
  refine ⟨decode_encodeAll, ?_, ?_⟩
  · intro large
    rw [decode_encodeAll_eq fit]
    exact if_pos large
  · intro others othersFit different same
    exact different (encodeAll_injective othersFit fit same)

/-- The ends of the range that is read, numbers just behind them, one of thirteen digits, and the
least one, which is written as a zero with a sign and differs from the zero. -/
theorem encodeAll_decodable_extremes :
    decode (String.ofList (encodeAll [0xFFFFFFFF, -0xFFFFFFFF, 0])) =
        .ok [0xFFFFFFFF, -0xFFFFFFFF, 0] ∧
      (∀ value ∈ [0x100000000, -0x100000000, 0x7FFFFFFFFFFFFFFF],
        decode (String.ofList (encodeAll [least, value])) =
          .error (.overflow (String.ofList (encodeAll [least, value])))) ∧
      (encode 0x7FFFFFFFFFFFFFFF).length = 13 ∧ encodeAll [0] ≠ encodeAll [least] := by
  refine ⟨(encodeAll_decodable (by decide)).1 (by decide), ?_, by decide +kernel, ?_⟩
  · intro value member
    have fit : ∀ other ∈ [least, value], FitsWord other := by
      revert value
      decide
    have large : ∃ other ∈ [least, value], other ≠ least ∧ limit < other.natAbs := by
      revert value
      decide
    exact (encodeAll_decodable fit).2.1 large
  · have fit : ∀ other ∈ [least], FitsWord other := by decide
    exact (encodeAll_decodable fit).2.2 [0] (by decide) (by decide)

end SourceWeave.Vlq
