import SourceWeave.Position

/-!
Why a mapping cannot be read or built, and the wording of each cause.
-/

set_option autoImplicit false

namespace SourceWeave

inductive Total
  | generatedLine
  | generatedColumn
  | source
  | sourceLine
  | sourceColumn
  | name
deriving DecidableEq, Repr

def Total.label : Total → String
  | .generatedLine => "generated line"
  | .generatedColumn => "generated column"
  | .source => "source index"
  | .sourceLine => "original line"
  | .sourceColumn => "original column"
  | .name => "name index"

inductive Malformation
  | invalidDigit (byte : UInt8)
  | overflow (segment : String)
  | unterminated (segment : String)
  | fieldCount (segment : String) (count : Nat)
  | columnNotIncreasing (column : Int) (line : Nat)
  | totalOutOfRange (total : Total) (value : Int)
  | contentCount (contents sources : Nat)
  | disorder (earlier later : Position)
  | lineZero (column : Nat)
deriving DecidableEq, Repr

/-- A byte as it is shown in a message: quotes and backslash escaped, printable
ASCII as it is, anything else by its two hexadecimal digits. -/
def escapedByte (byte : UInt8) : String :=
  match byte.toNat with
  | 9 => "\\t"
  | 10 => "\\n"
  | 13 => "\\r"
  | 34 => "\\\""
  | 39 => "\\'"
  | 92 => "\\\\"
  | code =>
      if 32 ≤ code ∧ code < 127 then String.singleton (Char.ofNat code)
      else "\\x" ++ String.ofList [Nat.digitChar (code / 16), Nat.digitChar (code % 16)]

def Malformation.message : Malformation → String
  | .invalidDigit byte => s!"invalid base64 digit '{escapedByte byte}'"
  | .overflow segment => s!"VLQ value in segment '{segment}' overflows 32 bits"
  | .unterminated segment => s!"unterminated VLQ continuation in segment '{segment}'"
  | .fieldCount segment count => s!"segment '{segment}' has {count} fields, expected 1, 4 or 5"
  | .columnNotIncreasing column line =>
      s!"generated column {column} on line {line} does not increase"
  | .totalOutOfRange total value => s!"{total.label} {value} is out of range"
  | .contentCount contents sources =>
      s!"sourcesContent has {contents} entries but sources has {sources}"
  | .disorder earlier later =>
      s!"segment at {later.line}:{later.column} is not after {earlier.line}:{earlier.column}"
  | .lineZero column => s!"generated line 0 at column {column} (lines are 1-indexed)"

inductive Quantity
  | offset
  | line
  | column
  | child
  | replacementEnd
deriving DecidableEq, Repr

def Quantity.label : Quantity → String
  | .offset => "offset"
  | .line => "line"
  | .column => "column"
  | .child => "child"
  | .replacementEnd => "replacement end"

inductive MappingError
  | malformed (cause : Malformation)
  | unsupportedVersion (version : Nat)
  | outOfRange (what : Quantity) (value limit : Nat)
  | identityConflict (identity : String)
deriving DecidableEq, Repr

def MappingError.message : MappingError → String
  | .malformed cause => s!"malformed mappings: {cause.message}"
  | .unsupportedVersion version => s!"unsupported source map version {version}, expected 3"
  | .outOfRange what value limit => s!"{what.label} {value} is out of range (limit {limit})"
  | .identityConflict identity => s!"conflicting content registered for source '{identity}'"

end SourceWeave
