import Mathlib.Tactic.Ring
import SourceWeave.Proofs.Tables
import SourceWeave.Vlq

/-!
Numbers as groups of digits. A segment is read if it is made of complete groups of at most
seven digits, each of a number of thirty-two bits, and what is read are the numbers of its
groups. Numbers that are written side by side are spelled by what is written, and so they come
back.
-/

set_option autoImplicit false

namespace SourceWeave.Vlq

theorem digitValue?_digit {value : Nat} (small : value < 64) :
    digitValue? (digit value) = some value := by
  have table : ∀ index : Fin 64, digitValue? (digit index.val) = some index.val := by
    decide +kernel
  exact table ⟨value, small⟩

theorem digits_ne_nil (word : Nat) : digits word ≠ [] := by
  unfold digits
  split
  · exact List.cons_ne_nil _ _
  · exact List.cons_ne_nil _ _

theorem digitValue?_of_mem_digits {word : Nat} {character : Char}
    (member : character ∈ digits word) : ∃ value, digitValue? character = some value := by
  induction word using digits.induct with
  | case1 word small =>
      rw [digits, if_pos small] at member
      rw [List.mem_singleton.mp member]
      exact ⟨word, digitValue?_digit (by omega)⟩
  | case2 word large ih =>
      rw [digits, if_neg large] at member
      rcases List.mem_cons.mp member with isFirst | isFurther
      · rw [isFirst]
        exact ⟨32 + word % 32, digitValue?_digit (by omega)⟩
      · exact ih isFurther

theorem encode_ne_nil (value : Int) : encode value ≠ [] :=
  digits_ne_nil _

theorem digitValue?_of_mem_encodeAll {values : List Int} {character : Char}
    (member : character ∈ encodeAll values) : ∃ value, digitValue? character = some value := by
  obtain ⟨value, _, inGroup⟩ := List.mem_flatMap.mp member
  exact digitValue?_of_mem_digits inGroup

theorem signed_word {value : Int} (fits : value.natAbs ≤ limit) : signed (word value) = value := by
  unfold limit at fits
  have whole : 2 * value.natAbs % 0x10000000000000000 = 2 * value.natAbs :=
    Nat.mod_eq_of_lt (by omega)
  rw [signed, word, whole]
  by_cases negative : value < 0
  · rw [if_pos negative, if_pos (by omega)]
    omega
  · rw [if_neg negative, if_neg (by omega)]
    omega

theorem word_lt {value : Int} (fits : value.natAbs ≤ limit) : word value < 32 ^ 7 := by
  unfold limit at fits
  have whole : 2 * value.natAbs % 0x10000000000000000 = 2 * value.natAbs :=
    Nat.mod_eq_of_lt (by omega)
  rw [word, whole]
  split <;> omega

/-! ### Spelling -/

/-- The digits of one group, the lowest first, and the word that they make up. All but the last
say that another one follows. -/
inductive Run : List Char → Nat → Prop
  | last {character : Char} {value : Nat} (isDigit : digitValue? character = some value)
      (ends : value < 32) : Run [character] value
  | further {character : Char} {value : Nat} {rest : List Char} {word : Nat}
      (isDigit : digitValue? character = some value) (goesOn : 32 ≤ value)
      (run : Run rest word) : Run (character :: rest) (value % 32 + 32 * word)

/-- Groups of at most seven digits one after the other, and the numbers that they stand for. -/
inductive Spells : List Char → List Int → Prop
  | nil : Spells [] []
  | cons {group rest : List Char} {word : Nat} {values : List Int} (run : Run group word)
      (short : group.length ≤ 7) (fits : (signed word).natAbs ≤ limit)
      (others : Spells rest values) : Spells (group ++ rest) (signed word :: values)

theorem Run.length_pos {group : List Char} {word : Nat} (run : Run group word) :
    0 < group.length := by
  cases run <;> exact Nat.succ_pos _

theorem run_digits (word : Nat) : Run (digits word) word := by
  induction word using digits.induct with
  | case1 word small =>
      rw [digits, if_pos small]
      exact .last (digitValue?_digit (by omega)) small
  | case2 word large ih =>
      have parts : (32 + word % 32) % 32 + 32 * (word / 32) = word := by omega
      have isDigit : digitValue? (digit (32 + word % 32)) = some (32 + word % 32) :=
        digitValue?_digit (by omega)
      have run := Run.further isDigit (by omega) ih
      rw [parts] at run
      rwa [digits, if_neg large]

theorem length_digits_le {count word : Nat} (short : word < 32 ^ (count + 1)) :
    (digits word).length ≤ count + 1 := by
  induction count generalizing word with
  | zero =>
      rw [digits, if_pos (by omega)]
      exact Nat.le_refl 1
  | succ count ih =>
      rw [digits]
      split
      · exact Nat.succ_le_succ (Nat.zero_le _)
      · rw [Nat.pow_succ, Nat.mul_comm] at short
        exact Nat.succ_le_succ (ih (Nat.div_lt_of_lt_mul short))

theorem spells_encodeAll {values : List Int} (fit : ∀ value ∈ values, value.natAbs ≤ limit) :
    Spells (encodeAll values) values := by
  induction values with
  | nil => exact .nil
  | cons value rest ih =>
      have fits := fit value List.mem_cons_self
      have same := signed_word fits
      have others := ih fun other member => fit other (List.mem_cons_of_mem value member)
      have spells := Spells.cons (run_digits (word value)) (length_digits_le (word_lt fits))
        (same.symm ▸ fits) others
      rwa [same] at spells

/-! ### Reading -/

section Reading

variable (segment : String)

theorem read_of_not_digit {reading : Reading} {character : Char}
    (noDigit : digitValue? character = none) (result : Reading) :
    reading.read segment character ≠ .ok result := by
  rw [Reading.read, noDigit]
  intro impossible
  cases impossible

theorem Run.foldlM_read {group : List Char} {word : Nat} (run : Run group word)
    (values : Array Int) {bits shift : Nat} (room : shift + 5 * group.length ≤ 35) :
    group.foldlM (Reading.read segment) { values, bits, shift } =
      Reading.close { values, bits, shift } segment (bits + word <<< shift) := by
  induction run generalizing bits shift with
  | @last character value isDigit ends =>
      rw [List.length_singleton] at room
      rw [List.foldlM_cons, Reading.read, isDigit]
      simp only [if_neg (by omega : ¬ 30 < shift), if_pos ends, Nat.mod_eq_of_lt ends]
      exact bind_pure _
  | @further character value rest word isDigit goesOn run ih =>
      -- The lowest five bits are taken off, and the remaining digits stand five bits higher.
      have some := run.length_pos
      rw [List.length_cons] at room
      have parts : (value % 32) <<< shift + word <<< (shift + 5) =
          (value % 32 + 32 * word) <<< shift := by
        rw [Nat.shiftLeft_eq, Nat.shiftLeft_eq, Nat.shiftLeft_eq, Nat.pow_add]
        ring
      rw [List.foldlM_cons, Reading.read, isDigit]
      simp only [if_neg (by omega : ¬ 30 < shift), if_neg (by omega : ¬ value < 32)]
      change rest.foldlM (Reading.read segment) _ = _
      rw [ih (by omega), Nat.add_assoc, parts]
      rfl

theorem Spells.foldlM_read {characters : List Char} {values : List Int}
    (spells : Spells characters values) (held : Array Int) :
    characters.foldlM (Reading.read segment) { values := held } =
      .ok { values := held ++ values } := by
  induction spells generalizing held with
  | nil => simp [pure, Except.pure]
  | @cons group rest word values run short fits others ih =>
      rw [List.foldlM_append, run.foldlM_read segment held (by omega), Nat.zero_add,
        Nat.shiftLeft_zero, Reading.close]
      simp only [if_neg (Nat.not_lt.mpr fits)]
      change rest.foldlM (Reading.read segment) _ = _
      rw [ih]
      simp

/-- What an open reading goes through until all its groups are closed starts with the rest of
its group. -/
theorem exists_run_of_foldlM {characters : List Char} {values : Array Int} {bits shift : Nat}
    {result : Reading} (some : characters ≠ [])
    (read : characters.foldlM (Reading.read segment) { values, bits, shift } = .ok result)
    (closed : result.pending = false) :
    ∃ group rest word, characters = group ++ rest ∧ Run group word ∧
      shift + 5 * group.length ≤ 35 ∧ (signed (bits + word <<< shift)).natAbs ≤ limit ∧
        rest.foldlM (Reading.read segment)
          { values := values.push (signed (bits + word <<< shift)) } = .ok result := by
  induction characters generalizing bits shift with
  | nil => exact absurd rfl some
  | cons character rest ih =>
      rw [List.foldlM_cons] at read
      obtain ⟨next, isNext, read⟩ := exists_of_bind_eq_ok read
      cases isDigit : digitValue? character with
      | none => exact absurd isNext (read_of_not_digit segment isDigit next)
      | some value =>
          rw [Reading.read, isDigit] at isNext
          simp only at isNext
          split at isNext
          · cases isNext
          · rename_i inRoom
            split at isNext
            · rename_i ends
              rw [Reading.close] at isNext
              split at isNext
              · cases isNext
              · rename_i fits
                cases isNext
                rw [Nat.mod_eq_of_lt ends] at fits read
                exact ⟨[character], rest, value, rfl, .last isDigit ends, by
                  rw [List.length_singleton]; omega, Nat.not_lt.mp fits, read⟩
            · rename_i goesOn
              cases isNext
              have restSome : rest ≠ [] := by
                intro atEnd
                rw [atEnd] at read
                cases read
                simp [Reading.pending] at closed
              obtain ⟨group, others, word, isRest, run, room, fits, read⟩ := ih restSome read
              have parts : bits + (value % 32) <<< shift + word <<< (shift + 5) =
                  bits + (value % 32 + 32 * word) <<< shift := by
                rw [Nat.shiftLeft_eq, Nat.shiftLeft_eq, Nat.shiftLeft_eq, Nat.pow_add]
                ring
              rw [parts] at fits read
              refine ⟨character :: group, others, value % 32 + 32 * word, by rw [isRest]; rfl,
                .further isDigit (Nat.not_lt.mp goesOn) run, ?_, fits, read⟩
              rw [List.length_cons]
              omega

theorem exists_spells_of_foldlM {characters : List Char} {held : Array Int} {result : Reading}
    (read : characters.foldlM (Reading.read segment) { values := held } = .ok result)
    (closed : result.pending = false) :
    ∃ values, Spells characters values ∧ result.values.toList = held.toList ++ values := by
  induction length : characters.length using Nat.strongRecOn generalizing characters held with
  | ind count ih =>
      by_cases some : characters = []
      · rw [some] at read
        cases read
        exact ⟨[], some ▸ .nil, (List.append_nil _).symm⟩
      · obtain ⟨group, rest, word, isWhole, run, room, fits, read⟩ :=
          exists_run_of_foldlM segment some read closed
        rw [Nat.zero_add, Nat.shiftLeft_zero] at fits read
        have shorter : rest.length < count := by
          have nonempty := run.length_pos
          rw [← length, isWhole, List.length_append]
          omega
        obtain ⟨values, spells, isResult⟩ := ih rest.length shorter read rfl
        refine ⟨signed word :: values, isWhole ▸ .cons run (by omega) fits spells, ?_⟩
        rw [isResult, Array.toList_push, List.append_assoc]
        rfl

theorem decode_eq_ok_iff_spells {values : List Int} :
    decode segment = .ok values ↔ Spells segment.toList values := by
  constructor
  · intro read
    obtain ⟨reading, isReading, read⟩ := exists_of_bind_eq_ok read
    split at read
    · cases read
    · rename_i closed
      cases read
      obtain ⟨values, spells, isResult⟩ :=
        exists_spells_of_foldlM segment isReading (Bool.eq_false_iff.mpr closed)
      rw [isResult]
      exact spells
  · intro spells
    rw [decode, spells.foldlM_read segment #[]]
    simp [Reading.pending, bind, Except.bind, pure, Except.pure]

example : decode "BgA" = .ok [0, 0] := by decide

end Reading

theorem Spells.unique {characters : List Char} {left right : List Int}
    (spellsLeft : Spells characters left) (spellsRight : Spells characters right) :
    left = right := by
  have isText : (String.ofList characters).toList = characters := String.toList_ofList
  rw [← isText, ← decode_eq_ok_iff_spells] at spellsLeft spellsRight
  rw [spellsLeft] at spellsRight
  exact Except.ok.inj spellsRight

theorem decode_encodeAll {values : List Int} (fit : ∀ value ∈ values, value.natAbs ≤ limit) :
    decode (String.ofList (encodeAll values)) = .ok values := by
  rw [decode_eq_ok_iff_spells, String.toList_ofList]
  exact spells_encodeAll fit

end SourceWeave.Vlq
