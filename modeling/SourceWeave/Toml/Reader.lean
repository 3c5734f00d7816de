import SourceWeave.Toml.Scalar
import SourceWeave.Toml.Text
import SourceWeave.Toml.Value

/-!
Reading TOML documents as lists of statements, one to a line.
-/

set_option autoImplicit false

namespace SourceWeave.Toml

/-- How deep values may be nested, and how many keys a path may have. -/
def nestingLimit : Nat := 79

def skipBlanks (text : List Char) : List Char :=
  text.dropWhile isBlank

def skipFiller (inComment : Bool) : List Char → List Char
  | '\r' :: '\n' :: rest => skipFiller false rest
  | character :: rest =>
      if character = '\n' then skipFiller false rest
      else if inComment && isPlain character then skipFiller true rest
      else if character = '#' then skipFiller true rest
      else if isBlank character then skipFiller false rest
      else character :: rest
  | [] => []

def readLineEnd (text : List Char) : Option (List Char) :=
  let rest := match skipBlanks text with
    | '#' :: comment => comment.dropWhile isPlain
    | rest => rest
  match rest with
  | [] => some []
  | '\n' :: rest => some rest
  | '\r' :: '\n' :: rest => some rest
  | _ => none

def isBareKey (character : Char) : Bool :=
  isDecimal character || ('a' ≤ character && character ≤ 'z') ||
    ('A' ≤ character && character ≤ 'Z') || character = '-' || character = '_'

def readKey (text : List Char) : Option (String × List Char) :=
  match text.takeWhile isBareKey with
  | [] => readQuoted text
  | key => some (String.ofList key, text.dropWhile isBareKey)

def readPath : Nat → List Char → Option (List String × List Char)
  | 0, _ => none
  | limit + 1, text => do
      let (key, rest) ← readKey (skipBlanks text)
      match skipBlanks rest with
      | '.' :: rest =>
          let (keys, rest) ← readPath limit rest
          return (key :: keys, rest)
      | rest => return ([key], rest)

/-! ### Values -/

mutual

/-- Reads a value. The first argument bounds the number of nested and consecutive
parts, the second says how deep values may still be nested. -/
def readValue : Nat → Nat → List Char → Option (Value × List Char)
  | 0, _, _ => none
  | bound + 1, depth, text =>
      match text with
      | '[' :: rest =>
          match depth with
          | 0 => none
          | depth + 1 => do
              let (elements, rest) ← readElements bound depth rest
              return (.array elements, rest)
      | '\x7b' :: rest =>
          match depth, skipBlanks rest with
          | 0, _ => none
          | _ + 1, '\x7d' :: rest => some (.table [], rest)
          | depth + 1, rest => do
              let (members, rest) ← readMembers bound depth rest
              if apart (members.map Prod.fst) then some (.table members, rest) else none
      | 't' :: 'r' :: 'u' :: 'e' :: rest => some (.boolean true, rest)
      | 'f' :: 'a' :: 'l' :: 's' :: 'e' :: rest => some (.boolean false, rest)
      | text =>
          match readString text with
          | some (value, rest) => some (.text value, rest)
          | none => (readScalar text).map fun rest => (.other, rest)

/-- Elements up to the bracket that closes them. A comma may stand behind the last. -/
def readElements : Nat → Nat → List Char → Option (List Value × List Char)
  | 0, _, _ => none
  | bound + 1, depth, text =>
      match skipFiller false text with
      | ']' :: rest => some ([], rest)
      | text => do
          let (element, rest) ← readValue bound depth text
          match skipFiller false rest with
          | ',' :: rest =>
              let (elements, rest) ← readElements bound depth rest
              return (element :: elements, rest)
          | ']' :: rest => return ([element], rest)
          | _ => none

def readMembers : Nat → Nat → List Char → Option (List (List String × Value) × List Char)
  | 0, _, _ => none
  | bound + 1, depth, text => do
      let (path, rest) ← readPath nestingLimit text
      let rest ← readMark '=' rest
      let (value, rest) ← readValue bound depth (skipBlanks rest)
      match skipBlanks rest with
      | ',' :: rest =>
          let (members, rest) ← readMembers bound depth rest
          return ((path, value) :: members, rest)
      | '\x7d' :: rest => return ([(path, value)], rest)
      | _ => none

end

/-! ### Documents -/

def readStatement (bound : Nat) (text : List Char) : Option (Statement × List Char) :=
  match text with
  | '[' :: '[' :: rest => do
      let (path, rest) ← readPath nestingLimit rest
      return (.elementHeader path, ← readMark ']' (← readMark ']' rest))
  | '[' :: rest => do
      let (path, rest) ← readPath nestingLimit rest
      return (.header path, ← readMark ']' rest)
  | text => do
      let (path, rest) ← readPath nestingLimit text
      let (value, rest) ← readValue bound nestingLimit (skipBlanks (← readMark '=' rest))
      return (.assign path value, rest)

def readStatements : Nat → List Char → Option (List Statement)
  | 0, _ => none
  | bound + 1, text =>
      match skipBlanks text with
      | [] => some []
      | text =>
          match readLineEnd text with
          | some rest => readStatements bound rest
          | none => do
              let (statement, rest) ← readStatement (2 * text.length + 2) text
              return statement :: (← readStatements bound (← readLineEnd rest))

def skipMark : List Char → List Char
  | '\uFEFF' :: rest => rest
  | text => text

def read (text : String) : Option (List Statement) :=
  let characters := skipMark text.toList
  readStatements (characters.length + 1) characters

end SourceWeave.Toml
