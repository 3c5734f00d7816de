import SourceWeave.Error

/-!
Signed numbers in base 64, five bits to a digit, the least significant first.
The lowest bit of a word is the sign; a digit of thirty-two or more says that
another digit follows. Words are sixty-four bits wide and readings are limited
to numbers of thirty-two.
-/

set_option autoImplicit false

namespace SourceWeave.Vlq

def alphabet : List Char :=
  "ABCDEFGHIJKLMNOPQRSTUVWXYZabcdefghijklmnopqrstuvwxyz0123456789+/".toList

def digitValue? (character : Char) : Option Nat :=
  let code := character.toNat
  if 'A'.toNat ≤ code ∧ code ≤ 'Z'.toNat then some (code - 'A'.toNat)
  else if 'a'.toNat ≤ code ∧ code ≤ 'z'.toNat then some (code - 'a'.toNat + 26)
  else if '0'.toNat ≤ code ∧ code ≤ '9'.toNat then some (code - '0'.toNat + 52)
  else if character = '+' then some 62
  else if character = '/' then some 63
  else none

def digit (value : Nat) : Char :=
  alphabet.getD value 'A'

/-! ### Writing -/

/-- Twice the magnitude, its sixty-fifth bit lost, with the sign in the lowest bit. -/
def word (value : Int) : Nat :=
  2 * value.natAbs % 0x10000000000000000 + (if value < 0 then 1 else 0)

def digits (word : Nat) : List Char :=
  if word < 32 then [digit word]
  else digit (32 + word % 32) :: digits (word / 32)

def encode (value : Int) : List Char :=
  digits (word value)

def encodeAll (values : List Int) : List Char :=
  values.flatMap encode

/-! ### Reading -/

def limit : Nat := 0xFFFFFFFF

def signed (word : Nat) : Int :=
  if word % 2 = 1 then -(word / 2 : Nat) else (word / 2 : Nat)

/-- What has been read of a segment: the values of its complete groups and the
bits of the group that is still open. -/
structure Reading where
  values : Array Int := #[]
  bits : Nat := 0
  shift : Nat := 0
deriving DecidableEq, Repr

def Reading.pending (reading : Reading) : Bool :=
  0 < reading.shift

def Reading.close (reading : Reading) (segment : String) (bits : Nat) :
    Except Malformation Reading :=
  let value := signed bits
  if limit < value.natAbs then .error (.overflow segment)
  else .ok { values := reading.values.push value }

/-- A character that is no digit is reported by its first byte. A group has at
most seven digits. -/
def Reading.read (segment : String) (reading : Reading) (character : Char) :
    Except Malformation Reading :=
  match digitValue? character with
  | none => .error (.invalidDigit ((String.utf8EncodeChar character).headD 0))
  | some value =>
      if 30 < reading.shift then .error (.overflow segment)
      else
        let bits := reading.bits + (value % 32) <<< reading.shift
        if value < 32 then reading.close segment bits
        else .ok { reading with bits, shift := reading.shift + 5 }

def decode (segment : String) : Except Malformation (List Int) := do
  let reading ← segment.toList.foldlM (Reading.read segment) {}
  if reading.pending then .error (.unterminated segment)
  else return reading.values.toList

end SourceWeave.Vlq
