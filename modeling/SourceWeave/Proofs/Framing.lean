import Mathlib.Algebra.Group.Nat.Defs
import Mathlib.Logic.Function.Basic
import SourceWeave.Hash.Feed

/-!
Feeds that can be taken apart again. What is fed of a value says by itself where it ends, so
that values which are fed one after the other keep apart whatever they hold. Numbers have eight
bytes, and so have the lengths of texts and lists: only what these can hold is told apart.
-/

set_option autoImplicit false

namespace SourceWeave.Feed

/-- What is fed of a value stands in front of the rest, and of values that fit it can be told
which one it is and where it ends. -/
structure Framed {α : Type} (feed : α → List UInt8 → List UInt8) (fits : α → Prop) : Prop where
  append : ∀ value rest, feed value rest = feed value [] ++ rest
  separates : ∀ {left right rest others}, fits left → fits right →
    feed left rest = feed right others → left = right ∧ rest = others

namespace Framed

variable {α β : Type} {feed : α → List UInt8 → List UInt8} {further : β → List UInt8 → List UInt8}
  {fits narrower : α → Prop} {suits : β → Prop}

theorem isPrefix_iff (framed : Framed feed fits) {left right : α} (leftFits : fits left)
    (rightFits : fits right) : feed left [] <+: feed right [] ↔ left = right := by
  constructor
  · intro isPrefix
    obtain ⟨more, whole⟩ := isPrefix
    rw [← framed.append] at whole
    exact (framed.separates leftFits rightFits whole).1
  · intro same
    exact same ▸ List.prefix_rfl

theorem mono (framed : Framed feed fits) (fitting : ∀ value, narrower value → fits value) :
    Framed feed narrower where
  append := framed.append
  separates leftFits rightFits same :=
    framed.separates (fitting _ leftFits) (fitting _ rightFits) same

theorem comap (framed : Framed feed fits) (parts : β → α) (injective : Function.Injective parts) :
    Framed (fun value => feed (parts value)) (fun value => fits (parts value)) where
  append value := framed.append (parts value)
  separates leftFits rightFits same := by
    obtain ⟨sameParts, sameRest⟩ := framed.separates leftFits rightFits same
    exact ⟨injective sameParts, sameRest⟩

theorem pair (first : Framed feed fits) (second : Framed further suits) :
    Framed (fun (value : α × β) rest => feed value.1 (further value.2 rest))
      (fun value => fits value.1 ∧ suits value.2) where
  append value rest := by
    rw [first.append, second.append, first.append _ (further value.2 []), List.append_assoc]
  separates leftFits rightFits same := by
    obtain ⟨sameFirst, sameFurther⟩ := first.separates leftFits.1 rightFits.1 same
    obtain ⟨sameSecond, sameRest⟩ := second.separates leftFits.2 rightFits.2 sameFurther
    exact ⟨Prod.ext sameFirst sameSecond, sameRest⟩

end Framed

/-! ### Parts of a feed -/

def wordLimit : Nat := 0x10000000000000000

theorem length_littleEndian (count value : Nat) : (littleEndian count value).length = count := by
  induction count generalizing value with
  | zero => rfl
  | succ count ih => rw [littleEndian, List.length_cons, ih]

theorem eq_of_littleEndian_eq {count left right : Nat} (leftFits : left < 256 ^ count)
    (rightFits : right < 256 ^ count) (same : littleEndian count left = littleEndian count right) :
    left = right := by
  induction count generalizing left right with
  | zero => omega
  | succ count ih =>
      rw [Nat.pow_succ, Nat.mul_comm] at leftFits rightFits
      obtain ⟨sameByte, sameRest⟩ := List.cons.inj same
      have sameLow : left % 256 = right % 256 := congrArg UInt8.toNat sameByte
      have sameHigh : left / 256 = right / 256 :=
        ih (Nat.div_lt_of_lt_mul leftFits) (Nat.div_lt_of_lt_mul rightFits) sameRest
      omega

theorem word_framed : Framed word (· < wordLimit) where
  append value rest := by rw [word, word, List.append_nil]
  separates leftFits rightFits same := by
    obtain ⟨sameBytes, sameRest⟩ := List.append_inj same
      (by rw [length_littleEndian, length_littleEndian])
    exact ⟨eq_of_littleEndian_eq leftFits rightFits sameBytes, sameRest⟩

def Short (value : String) : Prop :=
  value.utf8ByteSize < wordLimit

instance (value : String) : Decidable (Short value) :=
  inferInstanceAs (Decidable (_ < _))

theorem toByteArray_bytes (value : String) : (bytes value).toByteArray = value.toByteArray := by
  rw [bytes, ← List.utf8Encode.eq_1, String.utf8Encode_toList]

theorem length_bytes (value : String) : (bytes value).length = value.utf8ByteSize := by
  rw [← List.size_toByteArray, toByteArray_bytes]
  rfl

theorem bytes_injective : Function.Injective bytes := by
  intro left right same
  apply String.toByteArray_inj.mp
  rw [← toByteArray_bytes, ← toByteArray_bytes, same]

theorem text_framed : Framed text Short where
  append value rest := by
    rw [text, word_framed.append, text, word_framed.append _ (bytes value ++ []), List.append_nil,
      List.append_assoc]
  separates leftFits rightFits same := by
    obtain ⟨sameSize, sameFurther⟩ := word_framed.separates leftFits rightFits same
    obtain ⟨sameBytes, sameRest⟩ := List.append_inj sameFurther
      (by rw [length_bytes, length_bytes, sameSize])
    exact ⟨bytes_injective sameBytes, sameRest⟩

theorem flag_framed : Framed flag (fun _ => True) where
  append value rest := rfl
  separates {left right _ _} _ _ same := by
    have eq_of_byte : ∀ left right : Bool,
        (if left then 1 else 0 : UInt8) = (if right then 1 else 0) → left = right := by
      decide
    obtain ⟨sameByte, sameRest⟩ := List.cons.inj same
    exact ⟨eq_of_byte left right sameByte, sameRest⟩

section Containers

variable {α : Type} {feed : α → List UInt8 → List UInt8} {fits : α → Prop}

theorem Framed.optional (framed : Framed feed fits) :
    Framed (Feed.optional feed) (fun value => ∀ held ∈ value, fits held) where
  append value rest := by
    cases value with
    | none => rfl
    | some held => exact congrArg _ (framed.append held rest)
  separates {left right rest others} leftFits rightFits same := by
    cases left with
    | none =>
        cases right with
        | none => exact ⟨rfl, (flag_framed.separates trivial trivial same).2⟩
        | some given => cases (flag_framed.separates trivial trivial same).1
    | some held =>
        cases right with
        | none => cases (flag_framed.separates trivial trivial same).1
        | some given =>
            obtain ⟨sameValue, sameRest⟩ := framed.separates (leftFits held rfl)
              (rightFits given rfl) (flag_framed.separates trivial trivial same).2
            exact ⟨congrArg some sameValue, sameRest⟩

/-! ### Lists -/

theorem Framed.all_append (framed : Framed feed fits) (values : List α) (rest : List UInt8) :
    all feed values rest = all feed values [] ++ rest := by
  induction values with
  | nil => rfl
  | cons value values ih =>
      change feed value (all feed values rest) = feed value (all feed values []) ++ rest
      rw [framed.append, ih, framed.append value (all feed values []), List.append_assoc]

/-- Values one after the other are told apart if there are as many on either side. -/
theorem Framed.all_separates (framed : Framed feed fits) {lefts rights : List α}
    {rest others : List UInt8} (leftFits : ∀ value ∈ lefts, fits value)
    (rightFits : ∀ value ∈ rights, fits value) (sameLength : lefts.length = rights.length)
    (same : all feed lefts rest = all feed rights others) : lefts = rights ∧ rest = others := by
  induction lefts generalizing rights with
  | nil =>
      rw [List.length_eq_zero_iff.mp sameLength.symm] at same ⊢
      exact ⟨rfl, same⟩
  | cons left lefts ih =>
      cases rights with
      | nil => cases sameLength
      | cons right rights =>
          obtain ⟨sameFirst, sameFurther⟩ := framed.separates (leftFits left List.mem_cons_self)
            (rightFits right List.mem_cons_self) same
          obtain ⟨sameTail, sameRest⟩ := ih
            (fun value member => leftFits value (List.mem_cons_of_mem left member))
            (fun value member => rightFits value (List.mem_cons_of_mem right member))
            (Nat.succ.inj sameLength) sameFurther
          rw [sameFirst, sameTail]
          exact ⟨rfl, sameRest⟩

structure Listed (fits : α → Prop) (values : List α) : Prop where
  length : values.length < wordLimit
  each : ∀ value ∈ values, fits value

instance (fits : α → Prop) [DecidablePred fits] (values : List α) :
    Decidable (Listed fits values) :=
  decidable_of_iff (values.length < wordLimit ∧ ∀ value ∈ values, fits value)
    ⟨fun both => ⟨both.1, both.2⟩, fun listed => ⟨listed.length, listed.each⟩⟩

theorem Framed.counted (framed : Framed feed fits) :
    Framed (Feed.counted feed) (Listed fits) where
  append values rest := by
    rw [Feed.counted, Feed.counted, word_framed.append, framed.all_append,
      word_framed.append _ (all feed values []), List.append_assoc]
  separates leftFits rightFits same := by
    obtain ⟨sameLength, sameFurther⟩ := word_framed.separates leftFits.length rightFits.length same
    exact framed.all_separates leftFits.each rightFits.each sameLength sameFurther

end Containers

end SourceWeave.Feed
