/-!
JSON values as far as a source map can use them, and how they are written:
without blanks, and with no more escapes than strings need.
-/

set_option autoImplicit false

namespace SourceWeave

/-- A number is kept if it is written as a natural number; one with a sign, a
fraction or an exponent has no use here. A string is kept if it denotes a text;
one with an unpaired surrogate does not. -/
inductive Json
  | null
  | bool (value : Bool)
  | number (natural : Option Nat)
  | string (text : Option String)
  | array (elements : List Json)
  | object (members : List (Option String × Json))
deriving Repr, Inhabited

namespace Json

def natural (value : Nat) : Json :=
  .number (some value)

def text (value : String) : Json :=
  .string (some value)

def optional {α : Type} (write : α → Json) : Option α → Json
  | none => .null
  | some value => write value

def record (members : List (String × Json)) : Json :=
  .object (members.map fun (key, value) => (some key, value))

/-! ### Writing -/

/-- Quotes, backslashes and the characters below the blank are escaped; nothing else is. -/
def escape (character : Char) : List Char :=
  match character with
  | '"' => ['\\', '"']
  | '\\' => ['\\', '\\']
  | '\x08' => ['\\', 'b']
  | '\t' => ['\\', 't']
  | '\n' => ['\\', 'n']
  | '\x0c' => ['\\', 'f']
  | '\r' => ['\\', 'r']
  | character =>
      let code := character.toNat
      if code < 32 then
        ['\\', 'u', '0', '0', Nat.digitChar (code / 16), Nat.digitChar (code % 16)]
      else [character]

def writeLiteral : Option String → List Char
  | some text => '"' :: text.toList.flatMap escape ++ ['"']
  | none => ['"', '\\', 'u', 'd', '8', '0', '0', '"']

mutual

def write : Json → List Char
  | .null => ['n', 'u', 'l', 'l']
  | .bool true => ['t', 'r', 'u', 'e']
  | .bool false => ['f', 'a', 'l', 's', 'e']
  | .number (some value) => Nat.toDigits 10 value
  | .number none => ['-', '1']
  | .string text => writeLiteral text
  | .array elements => '[' :: writeElements elements ++ [']']
  | .object members => '{' :: writeMembers members ++ ['}']

def writeElements : List Json → List Char
  | [] => []
  | [element] => write element
  | element :: rest => write element ++ ',' :: writeElements rest

def writeMembers : List (Option String × Json) → List Char
  | [] => []
  | [(key, value)] => writeLiteral key ++ ':' :: write value
  | (key, value) :: rest => writeLiteral key ++ ':' :: write value ++ ',' :: writeMembers rest

end

def render (value : Json) : String :=
  String.ofList value.write

end Json

end SourceWeave
