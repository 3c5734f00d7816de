import SourceWeave.Json.Value

/-!
Reading JSON strictly: one value, blanks around it, and nothing else. A string
may hold any escape of a code unit; whether the units make up a text is decided
once the string has been read.
-/

set_option autoImplicit false

namespace SourceWeave.Json

def isBlank (character : Char) : Bool :=
  character = ' ' || character = '\t' || character = '\n' || character = '\r'

def skipBlanks (text : List Char) : List Char :=
  text.dropWhile isBlank

/-- What stands in a string: a character, or a UTF-16 unit given by its code. -/
inductive LiteralItem
  | character (value : Char)
  | unit (code : Nat)
deriving DecidableEq, Repr

def hexValue? (character : Char) : Option Nat :=
  let code := character.toNat
  if 48 ≤ code ∧ code ≤ 57 then some (code - 48)
  else if 97 ≤ code ∧ code ≤ 102 then some (code - 87)
  else if 65 ≤ code ∧ code ≤ 70 then some (code - 55)
  else none

def hexNumber? (digits : List Char) : Option Nat :=
  digits.foldlM (fun value digit => (hexValue? digit).map (16 * value + ·)) 0

def unescape? : Char → Option Char
  | '"' => some '"'
  | '\\' => some '\\'
  | '/' => some '/'
  | 'b' => some '\x08'
  | 'f' => some '\x0c'
  | 'n' => some '\n'
  | 'r' => some '\r'
  | 't' => some '\t'
  | _ => none

def readItems : List Char → Option (List LiteralItem × List Char)
  | '"' :: rest => some ([], rest)
  | '\\' :: 'u' :: first :: second :: third :: fourth :: rest => do
      let code ← hexNumber? [first, second, third, fourth]
      let (items, rest) ← readItems rest
      return (.unit code :: items, rest)
  | '\\' :: escaped :: rest => do
      let value ← unescape? escaped
      let (items, rest) ← readItems rest
      return (.character value :: items, rest)
  | value :: rest => do
      if value.toNat < 32 then none
      else
        let (items, rest) ← readItems rest
        return (.character value :: items, rest)
  | [] => none

def isHighSurrogate (code : Nat) : Bool :=
  0xD800 ≤ code && code < 0xDC00

def isLowSurrogate (code : Nat) : Bool :=
  0xDC00 ≤ code && code < 0xE000

def paired (high low : Nat) : Char :=
  Char.ofNat (0x10000 + (high - 0xD800) * 0x400 + (low - 0xDC00))

/-- The text that items make up. A surrogate without its partner makes up none. -/
def denote : List LiteralItem → Option (List Char)
  | [] => some []
  | .character value :: rest => (denote rest).map (value :: ·)
  | .unit code :: .unit next :: rest =>
      if isHighSurrogate code && isLowSurrogate next then
        (denote rest).map (paired code next :: ·)
      else if isHighSurrogate code || isLowSurrogate code then none
      else (denote (.unit next :: rest)).map (Char.ofNat code :: ·)
  | .unit code :: rest =>
      if isHighSurrogate code || isLowSurrogate code then none
      else (denote rest).map (Char.ofNat code :: ·)

def readLiteral (text : List Char) : Option (Option String × List Char) := do
  let (items, rest) ← readItems text
  return ((denote items).map String.ofList, rest)

/-! ### Numbers -/

def isDigit (character : Char) : Bool :=
  '0' ≤ character && character ≤ '9'

def readDigits (text : List Char) : Option (List Char × List Char) :=
  match text.takeWhile isDigit with
  | [] => none
  | digits => some (digits, text.dropWhile isDigit)

def decimalValue (digits : List Char) : Nat :=
  digits.foldl (fun value digit => 10 * value + (digit.toNat - 48)) 0

def readFraction : List Char → Option (Bool × List Char)
  | '.' :: rest => do
      let (_, rest) ← readDigits rest
      return (true, rest)
  | rest => some (false, rest)

def skipSign : List Char → List Char
  | '+' :: rest => rest
  | '-' :: rest => rest
  | rest => rest

def readExponent (text : List Char) : Option (Bool × List Char) :=
  match text with
  | marker :: rest =>
      if marker = 'e' ∨ marker = 'E' then do
        let (_, rest) ← readDigits (skipSign rest)
        return (true, rest)
      else some (false, text)
  | [] => some (false, [])

def readNumber (text : List Char) : Option (Json × List Char) := do
  let (negative, text) := match text with
    | '-' :: rest => (true, rest)
    | rest => (false, rest)
  let (digits, rest) ← readDigits text
  if digits.head? = some '0' ∧ digits.length ≠ 1 then none
  else
    let (fractional, rest) ← readFraction rest
    let (scaled, rest) ← readExponent rest
    if negative || fractional || scaled then return (.number none, rest)
    else return (.natural (decimalValue digits), rest)

/-! ### Values -/

mutual

/-- Reads a value, blanks in front of it skipped. The first argument bounds the
number of nested and consecutive parts. -/
def readValue : Nat → List Char → Option (Json × List Char)
  | 0, _ => none
  | bound + 1, text =>
      match skipBlanks text with
      | 'n' :: 'u' :: 'l' :: 'l' :: rest => some (.null, rest)
      | 't' :: 'r' :: 'u' :: 'e' :: rest => some (.bool true, rest)
      | 'f' :: 'a' :: 'l' :: 's' :: 'e' :: rest => some (.bool false, rest)
      | '"' :: rest => do
          let (text, rest) ← readLiteral rest
          return (.string text, rest)
      | '[' :: rest =>
          match skipBlanks rest with
          | ']' :: rest => some (.array [], rest)
          | rest => do
              let (elements, rest) ← readElements bound rest
              return (.array elements, rest)
      | '{' :: rest =>
          match skipBlanks rest with
          | '}' :: rest => some (.object [], rest)
          | rest => do
              let (members, rest) ← readMembers bound rest
              return (.object members, rest)
      | rest => readNumber rest

def readElements : Nat → List Char → Option (List Json × List Char)
  | 0, _ => none
  | bound + 1, text => do
      let (element, rest) ← readValue bound text
      match skipBlanks rest with
      | ',' :: rest =>
          let (elements, rest) ← readElements bound rest
          return (element :: elements, rest)
      | ']' :: rest => return ([element], rest)
      | _ => none

def readMembers : Nat → List Char → Option (List (Option String × Json) × List Char)
  | 0, _ => none
  | bound + 1, text =>
      match skipBlanks text with
      | '"' :: rest => do
          let (key, rest) ← readLiteral rest
          match skipBlanks rest with
          | ':' :: rest =>
              let (value, rest) ← readValue bound rest
              match skipBlanks rest with
              | ',' :: rest =>
                  let (members, rest) ← readMembers bound rest
                  return ((key, value) :: members, rest)
              | '}' :: rest => return ([(key, value)], rest)
              | _ => none
          | _ => none
      | _ => none

end

/-- A part takes a character at least, and a value and its bracket are two parts. -/
def bound (text : List Char) : Nat :=
  2 * text.length + 2

def read (text : String) : Option Json := do
  let characters := text.toList
  let (value, rest) ← readValue (bound characters) characters
  if skipBlanks rest = [] then some value else none

end SourceWeave.Json
