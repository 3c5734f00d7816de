/-!
Numbers, dates and times in TOML. Only whether they are well written and in range
matters; each reader gives what stands behind.
-/

set_option autoImplicit false

namespace SourceWeave.Toml

def isDecimal (character : Char) : Bool :=
  '0' ≤ character && character ≤ '9'

def digitValue (character : Char) : Nat :=
  let code := character.toNat
  if code < 58 then code - 48 else if code < 71 then code - 55 else code - 87

def isHexadecimal (character : Char) : Bool :=
  isDecimal character || ('a' ≤ character && character ≤ 'f') ||
    ('A' ≤ character && character ≤ 'F')

/-- Digits of which any two may have an underscore between them. -/
def spacedDigits (isDigit : Char → Bool) : List Char → List Char × List Char
  | '_' :: digit :: rest =>
      if isDigit digit then
        let (digits, rest) := spacedDigits isDigit rest
        (digit :: digits, rest)
      else ([], '_' :: digit :: rest)
  | digit :: rest =>
      if isDigit digit then
        let (digits, rest) := spacedDigits isDigit rest
        (digit :: digits, rest)
      else ([], digit :: rest)
  | [] => ([], [])

def readDigits (isDigit : Char → Bool) (text : List Char) : Option (List Char × List Char) :=
  match text with
  | digit :: _ => if isDigit digit then some (spacedDigits isDigit text) else none
  | [] => none

def valueOf (base : Nat) (digits : List Char) : Nat :=
  digits.foldl (fun value digit => base * value + digitValue digit) 0

def readSign : List Char → Bool × List Char
  | '-' :: rest => (true, rest)
  | '+' :: rest => (false, rest)
  | rest => (false, rest)

def readWhole : List Char → Option (List Char × List Char)
  | '0' :: rest => some (['0'], rest)
  | text => readDigits isDecimal text

/-! ### Numbers -/

def readInBase (base : Nat) (isDigit : Char → Bool) (text : List Char) : Option (List Char) := do
  let (digits, rest) ← readDigits isDigit text
  if valueOf base digits < 0x8000000000000000 then some rest else none

def readInteger (text : List Char) : Option (List Char) :=
  match text with
  | '0' :: 'x' :: rest => readInBase 16 isHexadecimal rest
  | '0' :: 'o' :: rest => readInBase 8 (fun digit => '0' ≤ digit && digit ≤ '7') rest
  | '0' :: 'b' :: rest => readInBase 2 (fun digit => digit = '0' || digit = '1') rest
  | text => do
      let (negative, rest) := readSign text
      let (digits, rest) ← readWhole rest
      let limit := 0x8000000000000000 + (if negative then 1 else 0)
      if valueOf 10 digits < limit then some rest else none

def exceedsDouble (digits : List Char) (exponent : Int) : Bool :=
  let mantissa := valueOf 10 digits
  let magnitude := exponent + (Nat.toDigits 10 mantissa).length
  if mantissa = 0 ∨ magnitude < 300 then false
  else if 310 < magnitude then true
  else
    decide (Nat.pow 2 1024 - Nat.pow 2 970 ≤
      mantissa * Nat.pow 10 exponent.toNat / Nat.pow 10 (-exponent).toNat)

def readExponent (text : List Char) : Option (Bool × Int × List Char) :=
  match text with
  | marker :: rest =>
      if marker = 'e' ∨ marker = 'E' then do
        let (negative, rest) := readSign rest
        let (digits, rest) ← readDigits isDecimal rest
        let value : Int := valueOf 10 digits
        return (true, if negative then -value else value, rest)
      else some (false, 0, text)
  | [] => some (false, 0, [])

def readFraction : List Char → Option (List Char × List Char)
  | '.' :: rest => readDigits isDecimal rest
  | rest => some ([], rest)

/-- A number with a fraction, an exponent or both. One that exceeds the doubles is
refused unless it is negative. -/
def readDecimal (text : List Char) : Option (List Char) := do
  let (negative, rest) := readSign text
  let (whole, rest) ← readWhole rest
  let (fraction, rest) ← readFraction rest
  let (scaled, exponent, rest) ← readExponent rest
  if fraction.isEmpty && !scaled then none
  else if !negative && exceedsDouble (whole ++ fraction) (exponent - fraction.length) then none
  else some rest

def readSpecial (text : List Char) : Option (List Char) :=
  match (readSign text).2 with
  | 'i' :: 'n' :: 'f' :: rest => some rest
  | 'n' :: 'a' :: 'n' :: rest => some rest
  | _ => none

/-! ### Dates and times -/

def readTwo (least most : Nat) : List Char → Option (Nat × List Char)
  | first :: second :: rest =>
      let value := 10 * digitValue first + digitValue second
      if isDecimal first && isDecimal second && decide (least ≤ value ∧ value ≤ most) then
        some (value, rest)
      else none
  | _ => none

def readMark (mark : Char) : List Char → Option (List Char)
  | first :: rest => if first = mark then some rest else none
  | [] => none

def daysIn (year month : Nat) : Nat :=
  if month = 2 then
    if year % 4 = 0 ∧ (year % 100 ≠ 0 ∨ year % 400 = 0) then 29 else 28
  else if month = 4 ∨ month = 6 ∨ month = 9 ∨ month = 11 then 30
  else 31

def readDate (text : List Char) : Option (List Char) := do
  let (century, rest) ← readTwo 0 99 text
  let (yearOfCentury, rest) ← readTwo 0 99 rest
  let (month, rest) ← readTwo 1 12 (← readMark '-' rest)
  let (_, rest) ← readTwo 1 (daysIn (100 * century + yearOfCentury) month) (← readMark '-' rest)
  return rest

/-- A time of day; the last minute may have a leap second. -/
def readTime (text : List Char) : Option (List Char) := do
  let (_, rest) ← readTwo 0 23 text
  let (_, rest) ← readTwo 0 59 (← readMark ':' rest)
  let (_, rest) ← readTwo 0 60 (← readMark ':' rest)
  match rest with
  | '.' :: digit :: after => if isDecimal digit then some (after.dropWhile isDecimal) else some rest
  | _ => some rest

def readOffset (text : List Char) : Option (List Char) :=
  match text with
  | 'Z' :: rest => some rest
  | 'z' :: rest => some rest
  | sign :: rest =>
      if sign = '+' ∨ sign = '-' then do
        let (_, rest) ← readTwo 0 23 rest
        let (_, rest) ← readTwo 0 59 (← readMark ':' rest)
        return rest
      else none
  | [] => none

def readMoment (text : List Char) : Option (List Char) :=
  match readDate text with
  | none => readTime text
  | some rest =>
      match rest with
      | mark :: after =>
          if mark = 'T' ∨ mark = 't' ∨ mark = ' ' then
            match readTime after with
            | none => some rest
            | some rest => (readOffset rest).orElse fun _ => some rest
          else some rest
      | [] => some []

def readScalar (text : List Char) : Option (List Char) :=
  ((readMoment text).orElse fun _ => readSpecial text).orElse fun _ =>
    (readDecimal text).orElse fun _ => readInteger text

end SourceWeave.Toml
