import Mathlib.Data.List.Forall2
import SourceWeave.WireMap

/-!
JSON that is written is read back. Every value has one written form, in which strings escape
nothing but quotes, backslashes and control characters, and the reader finds the value in it
whatever stands behind it. So wire maps come back from their JSON, each member that was left out
as the value it was left out for.
-/

set_option autoImplicit false

namespace SourceWeave

namespace Json

/-- A character is read as itself or, if it is a control character, as its code. -/
inductive LiteralItem.StandsFor : LiteralItem → Char → Prop
  | character (value : Char) : StandsFor (.character value) value
  | unit {value : Char} (control : value.toNat < 32) : StandsFor (.unit value.toNat) value

theorem escape_cases (character : Char) :
    ((character = '"' ∨ character = '\\' ∨ character.toNat < 32) ∧
      ∃ sign, sign ≠ 'u' ∧ unescape? sign = some character ∧
        escape character = ['\\', sign]) ∨
    (character.toNat < 32 ∧ escape character =
      ['\\', 'u', '0', '0', Nat.digitChar (character.toNat / 16),
        Nat.digitChar (character.toNat % 16)]) ∨
    (character ≠ '"' ∧ character ≠ '\\' ∧ 32 ≤ character.toNat ∧
      escape character = [character]) := by
  unfold escape
  split
  · exact Or.inl ⟨Or.inl rfl, '"', by decide, rfl, rfl⟩
  · exact Or.inl ⟨Or.inr (Or.inl rfl), '\\', by decide, rfl, rfl⟩
  · exact Or.inl ⟨Or.inr (Or.inr (by decide)), 'b', by decide, rfl, rfl⟩
  · exact Or.inl ⟨Or.inr (Or.inr (by decide)), 't', by decide, rfl, rfl⟩
  · exact Or.inl ⟨Or.inr (Or.inr (by decide)), 'n', by decide, rfl, rfl⟩
  · exact Or.inl ⟨Or.inr (Or.inr (by decide)), 'f', by decide, rfl, rfl⟩
  · exact Or.inl ⟨Or.inr (Or.inr (by decide)), 'r', by decide, rfl, rfl⟩
  · rename_i notQuote notBackslash _ _ _ _ _
    by_cases control : character.toNat < 32
    · exact Or.inr (Or.inl ⟨control, if_pos control⟩)
    · exact Or.inr (Or.inr ⟨notQuote, notBackslash, Nat.not_lt.mp control, if_neg control⟩)

theorem escape_eq_singleton_iff (character : Char) :
    escape character = [character] ↔
      character ≠ '"' ∧ character ≠ '\\' ∧ 32 ≤ character.toNat := by
  rcases escape_cases character with ⟨special, sign, _, _, escaped⟩ | ⟨control, escaped⟩ |
      ⟨noQuote, noBackslash, printed, itself⟩
  · rw [escaped]
    refine iff_of_false (fun impossible => nomatch impossible) ?_
    intro plain
    obtain ⟨noQuote, noBackslash, printed⟩ := plain
    rcases special with isQuote | isBackslash | control
    · exact noQuote isQuote
    · exact noBackslash isBackslash
    · omega
  · rw [escaped]
    refine iff_of_false (fun impossible => nomatch impossible) ?_
    intro plain
    have printed := plain.2.2
    omega
  · exact iff_of_true itself ⟨noQuote, noBackslash, printed⟩

theorem hexNumber?_code {code : Nat} (control : code < 32) :
    hexNumber? ['0', '0', Nat.digitChar (code / 16), Nat.digitChar (code % 16)] = some code := by
  have table : ∀ code : Fin 32, hexNumber? ['0', '0', Nat.digitChar (code.val / 16),
      Nat.digitChar (code.val % 16)] = some code.val := by decide
  exact table ⟨code, control⟩

theorem exists_readItems_escape (character : Char) (text : List Char) :
    ∃ item : LiteralItem, item.StandsFor character ∧
      readItems (escape character ++ text) =
        (readItems text).map fun read => (item :: read.1, read.2) := by
  rcases escape_cases character with ⟨_, sign, notCode, isSign, escaped⟩ | ⟨control, escaped⟩ |
      ⟨noQuote, noBackslash, printed, itself⟩
  · refine ⟨_, .character character, ?_⟩
    rw [escaped, List.cons_append, List.singleton_append, readItems, isSign]
    · cases readItems text <;> rfl
    · intro _ _ _ _ _ isCode _
      exact notCode isCode
  · refine ⟨_, .unit control, ?_⟩
    rw [escaped]
    simp only [List.cons_append, List.nil_append]
    rw [readItems, hexNumber?_code control]
    cases readItems text <;> rfl
  · refine ⟨_, .character character, ?_⟩
    rw [itself, List.singleton_append, readItems]
    · rw [if_neg (Nat.not_lt.mpr printed)]
      cases readItems text <;> rfl
    · exact noQuote
    · intro _ _ _ _ _ isBackslash _
      exact noBackslash isBackslash
    · intro _ _ isBackslash _
      exact noBackslash isBackslash

theorem exists_readItems (text rest : List Char) :
    ∃ items, readItems (text.flatMap escape ++ '"' :: rest) = some (items, rest) ∧
      List.Forall₂ LiteralItem.StandsFor items text := by
  induction text with
  | nil => exact ⟨[], by rw [List.flatMap_nil, List.nil_append, readItems], .nil⟩
  | cons character others ih =>
      obtain ⟨items, read, standFor⟩ := ih
      obtain ⟨item, standsFor, readFirst⟩ :=
        exists_readItems_escape character (others.flatMap escape ++ '"' :: rest)
      refine ⟨item :: items, ?_, .cons standsFor standFor⟩
      rw [List.flatMap_cons, List.append_assoc, readFirst, read]
      rfl

/-- Codes of control characters are no surrogates, and so they stand for themselves whatever
comes behind them. -/
theorem denote_unit {value : Char} (control : value.toNat < 32) (rest : List LiteralItem) :
    denote (.unit value.toNat :: rest) = (denote rest).map (value :: ·) := by
  have notHigh : isHighSurrogate value.toNat = false := by
    rw [isHighSurrogate, decide_eq_false (by omega), Bool.false_and]
  have notLow : isLowSurrogate value.toNat = false := by
    rw [isLowSurrogate, decide_eq_false (by omega), Bool.false_and]
  have itself : Char.ofNat value.toNat = value := Char.ofNat_toNat value
  cases rest with
  | nil => simp [denote, notHigh, notLow, itself]
  | cons next others => cases next <;> simp [denote, notHigh, notLow, itself]

theorem denote_of_standsFor {items : List LiteralItem} {text : List Char}
    (standFor : List.Forall₂ LiteralItem.StandsFor items text) : denote items = some text := by
  induction standFor with
  | nil => rw [denote]
  | cons standsFor _ ih =>
      cases standsFor with
      | character value => rw [denote, ih, Option.map_some]
      | unit control => rw [denote_unit control, ih, Option.map_some]

theorem exists_writeLiteral (text : Option String) :
    ∃ literal, writeLiteral text = '"' :: literal ∧
      ∀ rest, readLiteral (literal ++ rest) = some (text, rest) := by
  cases text with
  | none =>
      refine ⟨_, rfl, ?_⟩
      intro rest
      rfl
  | some text =>
      refine ⟨text.toList.flatMap escape ++ ['"'], rfl, ?_⟩
      intro rest
      obtain ⟨items, read, standFor⟩ := exists_readItems text.toList rest
      rw [List.append_assoc, List.singleton_append, readLiteral, read]
      change some ((denote items).map String.ofList, rest) = _
      rw [denote_of_standsFor standFor, Option.map_some, String.ofList_toList]

/-- What stands behind a number does not go on with it. -/
def EndsNumber (rest : List Char) : Prop :=
  ∀ character ∈ rest.head?, isDigit character = false ∧ character ≠ '.' ∧ character ≠ 'e' ∧
    character ≠ 'E'

theorem isDigit_of_mem_toDigits (value : Nat) {character : Char}
    (member : character ∈ Nat.toDigits 10 value) : isDigit character = true := by
  have digit := Nat.isDigit_of_mem_toDigits (by decide) (by decide) member
  exact digit

theorem toDigits_head? {value : Nat} (positive : 0 < value) :
    (Nat.toDigits 10 value).head? ≠ some '0' := by
  induction value using Nat.strongRecOn with
  | ind value ih =>
      by_cases single : value < 10
      · have table : ∀ digit : Fin 10, 0 < digit.val → Nat.digitChar digit.val ≠ '0' := by decide
        rw [Nat.toDigits_of_lt_base single, List.head?_cons, ne_eq, Option.some.injEq]
        exact table ⟨value, single⟩ positive
      · rw [Nat.toDigits_of_base_le (by decide) (by omega), List.head?_append]
        have higher := ih (value / 10) (by omega) (by omega)
        cases isHead : (Nat.toDigits 10 (value / 10)).head? with
        | none => exact absurd (List.head?_eq_none_iff.mp isHead) Nat.toDigits_ne_nil
        | some first =>
            rw [isHead] at higher
            exact higher

theorem decimalValue_toDigits (value : Nat) : decimalValue (Nat.toDigits 10 value) = value :=
  Nat.ofDigitChars_toDigits (by decide) (by decide)

theorem readDigits_append {digits rest : List Char} (some : digits ≠ [])
    (allDigits : ∀ character ∈ digits, isDigit character = true) (ends : EndsNumber rest) :
    readDigits (digits ++ rest) = Option.some (digits, rest) := by
  have noMore : rest.takeWhile isDigit = [] ∧ rest.dropWhile isDigit = rest := by
    cases rest with
    | nil => exact ⟨rfl, rfl⟩
    | cons character others =>
        have noDigit := (ends character rfl).1
        rw [List.takeWhile_cons, List.dropWhile_cons, noDigit]
        exact ⟨rfl, rfl⟩
  rw [readDigits, List.takeWhile_append_of_pos allDigits, List.dropWhile_append_of_pos allDigits,
    noMore.1, noMore.2, List.append_nil]
  cases digits with
  | nil => exact absurd rfl some
  | cons first others => rfl

theorem readFraction_of_ends {rest : List Char} (ends : EndsNumber rest) :
    readFraction rest = some (false, rest) := by
  cases rest with
  | nil => rw [readFraction]; intro _ impossible; cases impossible
  | cons character others =>
      rw [readFraction]
      intro _ isPoint
      cases isPoint
      exact (ends '.' rfl).2.1 rfl

theorem readExponent_of_ends {rest : List Char} (ends : EndsNumber rest) :
    readExponent rest = some (false, rest) := by
  cases rest with
  | nil => rfl
  | cons character others =>
      obtain ⟨_, _, notLower, notUpper⟩ := ends character rfl
      rw [readExponent, if_neg]
      intro isMarker
      exact isMarker.elim notLower notUpper

theorem exists_toDigits_cons (value : Nat) :
    ∃ first others, Nat.toDigits 10 value = first :: others ∧ isDigit first = true := by
  obtain ⟨first, others, isDigits⟩ :=
    List.exists_cons_of_ne_nil (Nat.toDigits_ne_nil (n := value) (b := 10))
  refine ⟨first, others, isDigits, isDigit_of_mem_toDigits value ?_⟩
  rw [isDigits]
  exact List.mem_cons_self

theorem readNumber_negative {rest : List Char} (ends : EndsNumber rest) :
    readNumber ('-' :: '1' :: rest) = some (.number none, rest) := by
  have digits : readDigits (['1'] ++ rest) = some (['1'], rest) :=
    readDigits_append (List.cons_ne_nil _ _) (List.forall_mem_singleton.mpr rfl) ends
  rw [readNumber]
  simp only [List.singleton_append] at digits
  simp only [digits]
  change (readFraction rest >>= _) = _
  rw [readFraction_of_ends ends]
  change (readExponent rest >>= _) = _
  rw [readExponent_of_ends ends]
  rfl

theorem readNumber_toDigits (value : Nat) {rest : List Char} (ends : EndsNumber rest) :
    readNumber (Nat.toDigits 10 value ++ rest) = some (.natural value, rest) := by
  have digits := readDigits_append Nat.toDigits_ne_nil
    (fun _ member => isDigit_of_mem_toDigits value member) ends
  have noZero : ¬ ((Nat.toDigits 10 value).head? = some '0' ∧
      (Nat.toDigits 10 value).length ≠ 1) := by
    intro superfluous
    by_cases positive : 0 < value
    · exact toDigits_head? positive superfluous.1
    · rw [Nat.eq_zero_of_not_pos positive] at superfluous
      exact superfluous.2 rfl
  rw [readNumber]
  · simp only [digits]
    change (if _ then none else _) = _
    rw [if_neg noZero, readFraction_of_ends ends]
    change (readExponent rest >>= _) = _
    rw [readExponent_of_ends ends]
    change some (Json.natural (decimalValue _), rest) = _
    rw [decimalValue_toDigits]
  · intro others signed
    obtain ⟨first, further, isDigits, isDigit⟩ := exists_toDigits_cons value
    rw [isDigits] at signed
    cases signed
    cases isDigit

/-! ### Values -/

theorem skipBlanks_cons (character : Char) (noBlank : isBlank character = false)
    (rest : List Char) : skipBlanks (character :: rest) = character :: rest :=
  List.dropWhile_cons_of_neg (by rw [noBlank]; exact Bool.false_ne_true)

theorem isBlank_of_isDigit {character : Char} (digit : isDigit character = true) :
    isBlank character = false := by
  cases blank : isBlank character with
  | false => rfl
  | true =>
      simp only [isBlank, Bool.or_eq_true, decide_eq_true_eq] at blank
      rcases blank with ((isSpace | isTab) | isNewline) | isReturn
      · rw [isSpace] at digit; cases digit
      · rw [isTab] at digit; cases digit
      · rw [isNewline] at digit; cases digit
      · rw [isReturn] at digit; cases digit

theorem exists_write_cons (value : Json) :
    ∃ first others, value.write = first :: others ∧ isBlank first = false ∧ first ≠ ']' := by
  cases value with
  | null => exact ⟨_, _, rfl, rfl, by decide⟩
  | bool value => cases value <;> exact ⟨_, _, rfl, rfl, by decide⟩
  | number natural =>
      cases natural with
      | none => exact ⟨_, _, rfl, rfl, by decide⟩
      | some value =>
          obtain ⟨first, others, isDigits, digit⟩ := exists_toDigits_cons value
          refine ⟨first, others, isDigits, isBlank_of_isDigit digit, ?_⟩
          intro closes
          rw [closes] at digit
          cases digit
  | string text =>
      obtain ⟨literal, isLiteral, _⟩ := exists_writeLiteral text
      exact ⟨_, _, isLiteral, rfl, by decide⟩
  | array elements => exact ⟨_, _, rfl, rfl, by decide⟩
  | object members => exact ⟨_, _, rfl, rfl, by decide⟩

theorem readValue_digit (bound : Nat) {first : Char} (digit : isDigit first = true)
    (others : List Char) :
    readValue (bound + 1) (first :: others) = readNumber (first :: others) := by
  rw [readValue, skipBlanks_cons _ (isBlank_of_isDigit digit)]
  split
  all_goals first
    | rfl
    | rename_i starts
      cases starts
      cases digit

theorem endsNumber_cons {character : Char}
    (ends : character = ',' ∨ character = ']' ∨ character = '}') (rest : List Char) :
    EndsNumber (character :: rest) := by
  intro other isOther
  cases isOther
  rcases ends with isComma | isBracket | isBrace
  · rw [isComma]; decide
  · rw [isBracket]; decide
  · rw [isBrace]; decide

theorem writeElements_cons_cons (element next : Json) (others : List Json) :
    writeElements (element :: next :: others) =
      element.write ++ ',' :: writeElements (next :: others) := by
  rw [writeElements]
  intro impossible
  cases impossible

theorem writeMembers_cons_cons (key : Option String) (value : Json)
    (next : Option String × Json) (others : List (Option String × Json)) :
    writeMembers ((key, value) :: next :: others) =
      writeLiteral key ++ ':' :: value.write ++ ',' :: writeMembers (next :: others) := by
  rw [writeMembers]
  intro impossible
  cases impossible

theorem exists_writeElements_cons (element : Json) (others : List Json) :
    ∃ first further, writeElements (element :: others) = first :: further ∧
      isBlank first = false ∧ first ≠ ']' := by
  obtain ⟨first, further, isElement, noBlank, noBracket⟩ := exists_write_cons element
  cases others with
  | nil => exact ⟨first, further, by rw [writeElements, isElement], noBlank, noBracket⟩
  | cons next others =>
      exact ⟨first, _, by rw [writeElements_cons_cons, isElement, List.cons_append], noBlank,
        noBracket⟩

theorem exists_writeMembers_cons (member : Option String × Json)
    (others : List (Option String × Json)) :
    ∃ further, writeMembers (member :: others) = '"' :: further := by
  obtain ⟨key, value⟩ := member
  obtain ⟨literal, isLiteral, _⟩ := exists_writeLiteral key
  cases others with
  | nil => exact ⟨_, by rw [writeMembers, isLiteral, List.cons_append]⟩
  | cons next others =>
      exact ⟨_, by rw [writeMembers_cons_cons, isLiteral, List.cons_append, List.cons_append]⟩

section Containers

variable {bound : Nat} {first : Char} {further rest : List Char}

theorem readValue_bracket {elements : List Json} (noBlank : isBlank first = false)
    (noBracket : first ≠ ']')
    (read : readElements bound (first :: further) = some (elements, rest)) :
    readValue (bound + 1) ('[' :: first :: further) = some (.array elements, rest) := by
  rw [readValue, skipBlanks_cons '[' rfl]
  simp only [skipBlanks_cons first noBlank]
  split
  · rename_i closed
    cases closed
    exact absurd rfl noBracket
  · rw [read]
    rfl

theorem readValue_brace {members : List (Option String × Json)}
    (read : readMembers bound ('"' :: further) = some (members, rest)) :
    readValue (bound + 1) ('{' :: '"' :: further) = some (.object members, rest) := by
  rw [readValue, skipBlanks_cons '{' rfl]
  simp only [skipBlanks_cons '"' rfl]
  change (readMembers bound ('"' :: further) >>= _) = _
  rw [read]
  rfl

variable {key : Option String} {value : Json} {literal text : List Char}
  (readKey : readLiteral (literal ++ ':' :: text) = some (key, ':' :: text))

include readKey

theorem readMembers_brace (readMember : readValue bound text = some (value, '}' :: rest)) :
    readMembers (bound + 1) ('"' :: (literal ++ ':' :: text)) = some ([(key, value)], rest) := by
  rw [readMembers, skipBlanks_cons '"' rfl]
  simp only [readKey, Option.bind_eq_bind, Option.bind_some, skipBlanks_cons ':' rfl, readMember,
    skipBlanks_cons '}' rfl]
  rfl

theorem readMembers_comma {members : List (Option String × Json)}
    (readMember : readValue bound text = some (value, ',' :: further))
    (readOthers : readMembers bound further = some (members, rest)) :
    readMembers (bound + 1) ('"' :: (literal ++ ':' :: text)) =
      some ((key, value) :: members, rest) := by
  rw [readMembers, skipBlanks_cons '"' rfl]
  simp only [readKey, Option.bind_eq_bind, Option.bind_some, skipBlanks_cons ':' rfl, readMember,
    skipBlanks_cons ',' rfl, readOthers]
  rfl

end Containers

mutual

/-- The bound is spent on parts, of which every one takes a character at least. -/
theorem readValue_write (value : Json) (bound : Nat) (enough : value.write.length ≤ bound)
    {rest : List Char} (ends : EndsNumber rest) :
    readValue bound (value.write ++ rest) = some (value, rest) := by
  cases bound with
  | zero =>
      obtain ⟨first, others, isValue, _⟩ := exists_write_cons value
      rw [isValue] at enough
      cases enough
  | succ bound =>
      cases value with
      | null => rw [readValue]; rfl
      | bool value => cases value <;> rw [readValue] <;> rfl
      | number natural =>
          cases natural with
          | none =>
              rw [readValue]
              exact readNumber_negative ends
          | some value =>
              obtain ⟨first, others, isDigits, digit⟩ := exists_toDigits_cons value
              have read := readNumber_toDigits value ends
              rw [isDigits, List.cons_append] at read
              rw [write, isDigits, List.cons_append, readValue_digit bound digit, read]
              rfl
      | string text =>
          obtain ⟨literal, isLiteral, read⟩ := exists_writeLiteral text
          rw [write, isLiteral, List.cons_append, readValue, skipBlanks_cons _ rfl]
          simp only [read]
          rfl
      | array elements =>
          cases elements with
          | nil => rw [readValue]; rfl
          | cons element others =>
              have whole : (array (element :: others)).write ++ rest =
                  '[' :: (writeElements (element :: others) ++ ']' :: rest) := by
                rw [write]
                simp
              rw [write] at enough
              simp only [List.length_append, List.length_cons, List.length_nil] at enough
              have read := readElements_write element others bound (by omega) rest
              obtain ⟨first, further, isElements, noBlank, noBracket⟩ :=
                exists_writeElements_cons element others
              rw [isElements, List.cons_append] at read
              rw [whole, isElements, List.cons_append]
              exact readValue_bracket noBlank noBracket read
      | object members =>
          cases members with
          | nil => rw [readValue]; rfl
          | cons member others =>
              have whole : (object (member :: others)).write ++ rest =
                  '{' :: (writeMembers (member :: others) ++ '}' :: rest) := by
                rw [write]
                simp
              rw [write] at enough
              simp only [List.length_append, List.length_cons, List.length_nil] at enough
              have read := readMembers_write member others bound (by omega) rest
              obtain ⟨further, isMembers⟩ := exists_writeMembers_cons member others
              rw [isMembers, List.cons_append] at read
              rw [whole, isMembers, List.cons_append]
              exact readValue_brace read
termination_by bound

theorem readElements_write (element : Json) (others : List Json) (bound : Nat)
    (enough : (writeElements (element :: others)).length < bound) (rest : List Char) :
    readElements bound (writeElements (element :: others) ++ ']' :: rest) =
      some (element :: others, rest) := by
  cases bound with
  | zero => cases enough
  | succ bound =>
      cases others with
      | nil =>
          rw [writeElements] at enough ⊢
          rw [readElements, readValue_write element bound (by omega)
            (endsNumber_cons (Or.inr (Or.inl rfl)) rest)]
          rfl
      | cons next others =>
          rw [writeElements_cons_cons] at enough ⊢
          simp only [List.length_append, List.length_cons] at enough
          rw [List.append_assoc, List.cons_append, readElements,
            readValue_write element bound (by omega) (endsNumber_cons (Or.inl rfl) _)]
          have comma := skipBlanks_cons ',' rfl
            (writeElements (next :: others) ++ ']' :: rest)
          have read := readElements_write next others bound (by omega) rest
          simp only [Option.bind_eq_bind, Option.bind_some, comma, read]
          rfl
termination_by bound

theorem readMembers_write (member : Option String × Json) (others : List (Option String × Json))
    (bound : Nat) (enough : (writeMembers (member :: others)).length < bound)
    (rest : List Char) :
    readMembers bound (writeMembers (member :: others) ++ '}' :: rest) =
      some (member :: others, rest) := by
  obtain ⟨key, value⟩ := member
  obtain ⟨literal, isLiteral, readKey⟩ := exists_writeLiteral key
  cases bound with
  | zero => cases enough
  | succ bound =>
      cases others with
      | nil =>
          rw [writeMembers, isLiteral] at enough ⊢
          simp only [List.length_append, List.length_cons] at enough
          simp only [List.cons_append, List.append_assoc]
          exact readMembers_brace (readKey _) (readValue_write value bound (by omega)
            (endsNumber_cons (Or.inr (Or.inr rfl)) rest))
      | cons next others =>
          rw [writeMembers_cons_cons, isLiteral] at enough ⊢
          simp only [List.length_append, List.length_cons] at enough
          simp only [List.cons_append, List.append_assoc]
          exact readMembers_comma (readKey _)
            (readValue_write value bound (by omega) (endsNumber_cons (Or.inl rfl) _))
            (readMembers_write next others bound (by omega) rest)
termination_by bound

end

theorem read_render (value : Json) : read value.render = some value := by
  have atEnd : EndsNumber [] := fun _ impossible => nomatch impossible
  have enough : value.write.length ≤ bound value.write := by
    unfold bound
    omega
  have written := readValue_write value _ enough atEnd
  rw [List.append_nil] at written
  rw [read, render, String.toList_ofList, written]
  rfl

section Fields

variable {α : Type} {write : α → Json} {read : Json → Option α}
  (inverse : ∀ value, read (write value) = some value)

include inverse

theorem list?_map (values : List α) : list? read (.array (values.map write)) = some values := by
  rw [list?, List.mapM_map]
  induction values with
  | nil => rfl
  | cons value rest ih =>
      rw [List.mapM_cons, Function.comp_apply, inverse, ih]
      rfl

variable (notNull : ∀ value, write value ≠ .null)

include notNull

theorem nullable_write (value : α) : nullable read (write value) = some (some value) := by
  have known := notNull value
  rw [nullable]
  · rw [inverse, Option.map_some]
  · exact known

theorem nullable_optional (value : Option α) :
    nullable read (optional write value) = some value := by
  cases value with
  | none => rfl
  | some value => exact nullable_write inverse notNull value

theorem optionalField_map (value : Option α) :
    optionalField read (value.map write) = some value := by
  cases value with
  | none => rfl
  | some value => exact nullable_write inverse notNull value

end Fields

end Json

/-! ### Wire maps -/

namespace WireMap

theorem fields?_toJson (wire : WireMap) :
    wire.toJson.fields? fieldNames =
      some
        [some (.natural wire.version.toNat), wire.file.map .text, wire.sourceRoot.map .text,
          some (.array (wire.sources.map (.optional .text))),
          wire.sourcesContent.map fun contents => .array (contents.map (.optional .text)),
          some (.array (wire.names.map .text)), some (.text wire.mappings)] := by
  cases wire with
  | mk version file sourceRoot sources sourcesContent names mappings =>
      cases file <;> cases sourceRoot <;> cases sourcesContent <;> rfl

theorem ofJson?_toJson (wire : WireMap) : ofJson? wire.toJson = some wire := by
  have textInverse (value : String) : Json.text? (.text value) = some value := rfl
  have textNotNull (value : String) : Json.text value ≠ .null := Json.noConfusion
  have nullableInverse := Json.nullable_optional textInverse textNotNull
  have arrayNotNull (contents : List (Option String)) :
      Json.array (contents.map (.optional .text)) ≠ .null := Json.noConfusion
  have version : Json.word? (.natural wire.version.toNat) = some wire.version.toNat :=
    if_pos wire.version.toNat_lt
  rw [ofJson?, fields?_toJson]
  simp only [Option.bind_eq_bind, Option.bind_some, Json.required, version, Json.withDefault,
    Json.optionalField_map textInverse textNotNull, Json.list?_map nullableInverse,
    Json.optionalField_map (Json.list?_map nullableInverse) arrayNotNull,
    Json.list?_map textInverse, textInverse, UInt32.ofNat_toNat]
  rfl

/-- A wire map comes back from its JSON, whatever its texts are and whichever of its members are
left out. Strings are written as they are but for quotes, backslashes and control characters. -/
theorem read?_render (wire : WireMap) :
    read? wire.render = some wire ∧
      ∀ character, Json.escape character = [character] ↔
        character ≠ '"' ∧ character ≠ '\\' ∧ 32 ≤ character.toNat := by
  refine ⟨?_, Json.escape_eq_singleton_iff⟩
  rw [read?, render, Json.read_render]
  exact ofJson?_toJson wire

end WireMap

end SourceWeave
