import SourceWeave.Hash.Feed
import SourceWeave.Hash.Xxh3

/-!
Content hashes: sixteen bytes, the least significant of the hash value first,
and how they are shown.
-/

set_option autoImplicit false

namespace SourceWeave

structure ContentHash where
  bytes : Vector UInt8 16
deriving DecidableEq, Repr

namespace ContentHash

def ofFeed (feed : List UInt8) : ContentHash :=
  let value := Xxh3.hash ⟨feed.toArray⟩
  let whole := value.low.toNat + 0x10000000000000000 * value.high.toNat
  ⟨Vector.ofFn fun index => UInt8.ofNat (whole >>> (8 * index.val))⟩

def hexDigits (byte : UInt8) : List Char :=
  [Nat.digitChar (byte.toNat / 16), Nat.digitChar (byte.toNat % 16)]

def hex (bytes : List UInt8) : String :=
  String.ofList (bytes.flatMap hexDigits)

def render (digest : ContentHash) : String :=
  hex digest.bytes.toList

/-- The first two bytes, enough to tell hashes apart while looking at them. -/
def abbreviate (digest : ContentHash) : String :=
  "ContentHash(" ++ hex (digest.bytes.toList.take 2) ++ "..)"

end ContentHash

end SourceWeave
