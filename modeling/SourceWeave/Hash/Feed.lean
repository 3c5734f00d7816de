/-!
Byte sequences that values are hashed as. Texts are framed by their length and
optional values by a presence byte, so that what is fed one after the other
cannot run together. Each function puts the bytes of its value in front of `rest`.
-/

set_option autoImplicit false

namespace SourceWeave.Feed

def littleEndian : Nat → Nat → List UInt8
  | 0, _ => []
  | count + 1, value => UInt8.ofNat value :: littleEndian count (value / 256)

def word (value : Nat) (rest : List UInt8) : List UInt8 :=
  littleEndian 8 value ++ rest

def bytes (text : String) : List UInt8 :=
  text.toList.flatMap String.utf8EncodeChar

def text (value : String) (rest : List UInt8) : List UInt8 :=
  word value.utf8ByteSize (bytes value ++ rest)

def flag (value : Bool) (rest : List UInt8) : List UInt8 :=
  (if value then 1 else 0) :: rest

/-- A value that may be missing, behind a byte that says whether it is there. -/
def optional {α : Type} (feed : α → List UInt8 → List UInt8) :
    Option α → List UInt8 → List UInt8
  | none, rest => flag false rest
  | some value, rest => flag true (feed value rest)

def all {α : Type} (feed : α → List UInt8 → List UInt8) (values : List α)
    (rest : List UInt8) : List UInt8 :=
  values.foldr feed rest

def counted {α : Type} (feed : α → List UInt8 → List UInt8) (values : List α)
    (rest : List UInt8) : List UInt8 :=
  word values.length (all feed values rest)

end SourceWeave.Feed
