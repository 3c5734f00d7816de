/-!
Texts measured in UTF-16 code units, the unit of offsets and columns. A
character outside the basic plane counts two; a cut between its two halves is
moved in front of it.
-/

set_option autoImplicit false

namespace SourceWeave.Utf16

def width (character : Char) : Nat :=
  if character.toNat < 0x10000 then 1 else 2

def length : List Char → Nat
  | [] => 0
  | character :: rest => width character + length rest

/-- The longest run of whole characters at the front that fits into `units` units. -/
def take (units : Nat) : List Char → List Char
  | [] => []
  | character :: rest =>
      if width character ≤ units then character :: take (units - width character) rest
      else []

def drop (units : Nat) : List Char → List Char
  | [] => []
  | character :: rest =>
      if width character ≤ units then drop (units - width character) rest
      else character :: rest

theorem take_append_drop (units : Nat) (characters : List Char) :
    take units characters ++ drop units characters = characters := by
  induction characters generalizing units with
  | nil => rfl
  | cons character rest ih =>
      unfold take drop
      split
      · rw [List.cons_append, ih]
      · rfl

def byteLength : List Char → Nat
  | [] => 0
  | character :: rest => character.utf8Size + byteLength rest

end SourceWeave.Utf16
