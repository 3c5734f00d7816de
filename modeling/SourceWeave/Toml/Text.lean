/-!
Strings in TOML: with escapes between double quotes, as they stand between single
ones, and either over several lines between triple quotes.
-/

set_option autoImplicit false

namespace SourceWeave.Toml

def isPlain (character : Char) : Bool :=
  let code := character.toNat
  character = '\t' || (32 ≤ code && code ≠ 127)

def hexDigit? (character : Char) : Option Nat :=
  let code := character.toNat
  if 48 ≤ code ∧ code ≤ 57 then some (code - 48)
  else if 97 ≤ code ∧ code ≤ 102 then some (code - 87)
  else if 65 ≤ code ∧ code ≤ 70 then some (code - 55)
  else none

def characterOf? (digits : List Char) : Option Char := do
  let code ← digits.foldlM (fun value digit => (hexDigit? digit).map (16 * value + ·)) 0
  if code < 0xD800 ∨ 0xE000 ≤ code ∧ code < 0x110000 then some (Char.ofNat code) else none

def escaped? : Char → Option Char
  | 'b' => some '\x08'
  | 't' => some '\t'
  | 'n' => some '\n'
  | 'f' => some '\x0c'
  | 'r' => some '\r'
  | '"' => some '"'
  | '\\' => some '\\'
  | _ => none

def prepend (character : Char) (rest : Option (List Char × List Char)) :
    Option (List Char × List Char) :=
  rest.map fun (characters, rest) => (character :: characters, rest)

def readEscaped : List Char → Option (List Char × List Char)
  | '"' :: rest => some ([], rest)
  | '\\' :: 'u' :: a :: b :: c :: d :: rest => do
      prepend (← characterOf? [a, b, c, d]) (readEscaped rest)
  | '\\' :: 'U' :: a :: b :: c :: d :: e :: f :: g :: h :: rest => do
      prepend (← characterOf? [a, b, c, d, e, f, g, h]) (readEscaped rest)
  | '\\' :: mark :: rest => do prepend (← escaped? mark) (readEscaped rest)
  | character :: rest =>
      if isPlain character then prepend character (readEscaped rest) else none
  | [] => none

def readVerbatim : List Char → Option (List Char × List Char)
  | '\'' :: rest => some ([], rest)
  | character :: rest =>
      if isPlain character then prepend character (readVerbatim rest) else none
  | [] => none

def isBlank (character : Char) : Bool :=
  character = ' ' || character = '\t'

def endsLine (text : List Char) : Bool :=
  match text.dropWhile isBlank with
  | '\n' :: _ => true
  | '\r' :: '\n' :: _ => true
  | _ => false

/-- From behind three double quotes to behind the next three; up to two more quotes
in front of those belong to the text. A backslash at the end of a line joins it
to what follows, and `joining` says that blanks and line ends are passed over. -/
def readEscapedLines (joining : Bool) : List Char → Option (List Char × List Char)
  | '"' :: '"' :: '"' :: '"' :: '"' :: rest => some (['"', '"'], rest)
  | '"' :: '"' :: '"' :: '"' :: rest => some (['"'], rest)
  | '"' :: '"' :: '"' :: rest => some ([], rest)
  | '\r' :: '\n' :: rest =>
      if joining then readEscapedLines true rest else prepend '\n' (readEscapedLines false rest)
  | '\n' :: rest =>
      if joining then readEscapedLines true rest else prepend '\n' (readEscapedLines false rest)
  | '\\' :: 'u' :: a :: b :: c :: d :: rest => do
      prepend (← characterOf? [a, b, c, d]) (readEscapedLines false rest)
  | '\\' :: 'U' :: a :: b :: c :: d :: e :: f :: g :: h :: rest => do
      prepend (← characterOf? [a, b, c, d, e, f, g, h]) (readEscapedLines false rest)
  | '\\' :: mark :: rest =>
      if endsLine (mark :: rest) then readEscapedLines true (mark :: rest)
      else do prepend (← escaped? mark) (readEscapedLines false rest)
  | character :: rest =>
      if joining && isBlank character then readEscapedLines true rest
      else if isPlain character then prepend character (readEscapedLines false rest)
      else none
  | [] => none

def readVerbatimLines : List Char → Option (List Char × List Char)
  | '\'' :: '\'' :: '\'' :: '\'' :: '\'' :: rest => some (['\'', '\''], rest)
  | '\'' :: '\'' :: '\'' :: '\'' :: rest => some (['\''], rest)
  | '\'' :: '\'' :: '\'' :: rest => some ([], rest)
  | '\r' :: '\n' :: rest => prepend '\n' (readVerbatimLines rest)
  | '\n' :: rest => prepend '\n' (readVerbatimLines rest)
  | character :: rest =>
      if isPlain character then prepend character (readVerbatimLines rest) else none
  | [] => none

/-- A line end directly behind the opening quotes is no part of the text. -/
def skipNewline : List Char → List Char
  | '\n' :: rest => rest
  | '\r' :: '\n' :: rest => rest
  | rest => rest

def asString (read : Option (List Char × List Char)) : Option (String × List Char) :=
  read.map fun (characters, rest) => (String.ofList characters, rest)

def readQuoted : List Char → Option (String × List Char)
  | '"' :: rest => asString (readEscaped rest)
  | '\'' :: rest => asString (readVerbatim rest)
  | _ => none

def readString : List Char → Option (String × List Char)
  | '"' :: '"' :: '"' :: rest => asString (readEscapedLines false (skipNewline rest))
  | '\'' :: '\'' :: '\'' :: rest => asString (readVerbatimLines (skipNewline rest))
  | text => readQuoted text

end SourceWeave.Toml
