/-!
The 128-bit XXH3 hash with seed zero and the default secret. Inputs of up to
sixteen bytes are read in one or two words, inputs of up to 240 bytes in blocks
of thirty-two, and longer ones in stripes of sixty-four that are gathered into
eight lanes.
-/

set_option autoImplicit false

namespace SourceWeave.Xxh3

def prime32First : UInt64 := 0x9E3779B1
def prime32Second : UInt64 := 0x85EBCA77
def prime32Third : UInt64 := 0xC2B2AE3D
def prime64First : UInt64 := 0x9E3779B185EBCA87
def prime64Second : UInt64 := 0xC2B2AE3D27D4EB4F
def prime64Third : UInt64 := 0x165667B19E3779F9
def prime64Fourth : UInt64 := 0x85EBCA77C2B2AE63
def prime64Fifth : UInt64 := 0x27D4EB2F165667C5
def mixFirst : UInt64 := 0x165667919E3779F9
def mixSecond : UInt64 := 0x9FB21C651E98DF25

def secret : ByteArray := ⟨#[
  0xb8, 0xfe, 0x6c, 0x39, 0x23, 0xa4, 0x4b, 0xbe, 0x7c, 0x01, 0x81, 0x2c, 0xf7, 0x21, 0xad, 0x1c,
  0xde, 0xd4, 0x6d, 0xe9, 0x83, 0x90, 0x97, 0xdb, 0x72, 0x40, 0xa4, 0xa4, 0xb7, 0xb3, 0x67, 0x1f,
  0xcb, 0x79, 0xe6, 0x4e, 0xcc, 0xc0, 0xe5, 0x78, 0x82, 0x5a, 0xd0, 0x7d, 0xcc, 0xff, 0x72, 0x21,
  0xb8, 0x08, 0x46, 0x74, 0xf7, 0x43, 0x24, 0x8e, 0xe0, 0x35, 0x90, 0xe6, 0x81, 0x3a, 0x26, 0x4c,
  0x3c, 0x28, 0x52, 0xbb, 0x91, 0xc3, 0x00, 0xcb, 0x88, 0xd0, 0x65, 0x8b, 0x1b, 0x53, 0x2e, 0xa3,
  0x71, 0x64, 0x48, 0x97, 0xa2, 0x0d, 0xf9, 0x4e, 0x38, 0x19, 0xef, 0x46, 0xa9, 0xde, 0xac, 0xd8,
  0xa8, 0xfa, 0x76, 0x3f, 0xe3, 0x9c, 0x34, 0x3f, 0xf9, 0xdc, 0xbb, 0xc7, 0xc7, 0x0b, 0x4f, 0x1d,
  0x8a, 0x51, 0xe0, 0x4b, 0xcd, 0xb4, 0x59, 0x31, 0xc8, 0x9f, 0x7e, 0xc9, 0xd9, 0x78, 0x73, 0x64,
  0xea, 0xc5, 0xac, 0x83, 0x34, 0xd3, 0xeb, 0xc3, 0xc5, 0x81, 0xa0, 0xff, 0xfa, 0x13, 0x63, 0xeb,
  0x17, 0x0d, 0xdd, 0x51, 0xb7, 0xf0, 0xda, 0x49, 0xd3, 0x16, 0x55, 0x26, 0x29, 0xd4, 0x68, 0x9e,
  0x2b, 0x16, 0xbe, 0x58, 0x7d, 0x47, 0xa1, 0xfc, 0x8f, 0xf8, 0xb8, 0xd1, 0x7a, 0xd0, 0x31, 0xce,
  0x45, 0xcb, 0x3a, 0x8f, 0x95, 0x16, 0x04, 0x28, 0xaf, 0xd7, 0xfb, 0xca, 0xbb, 0x4b, 0x40, 0x7e]⟩

def byteAt (bytes : ByteArray) (offset : Nat) : UInt64 :=
  if inside : offset < bytes.size then bytes[offset].toUInt64 else 0

def word32 (bytes : ByteArray) (offset : Nat) : UInt64 :=
  byteAt bytes offset ||| byteAt bytes (offset + 1) <<< 8 |||
    byteAt bytes (offset + 2) <<< 16 ||| byteAt bytes (offset + 3) <<< 24

def word64 (bytes : ByteArray) (offset : Nat) : UInt64 :=
  word32 bytes offset ||| word32 bytes (offset + 4) <<< 32

def reverse32 (word : UInt64) : UInt64 :=
  (word &&& 0xFF) <<< 24 ||| (word >>> 8 &&& 0xFF) <<< 16 |||
    (word >>> 16 &&& 0xFF) <<< 8 ||| (word >>> 24 &&& 0xFF)

def reverse64 (word : UInt64) : UInt64 :=
  reverse32 (word &&& 0xFFFFFFFF) <<< 32 ||| reverse32 (word >>> 32)

def rotate32 (word count : UInt64) : UInt64 :=
  (word <<< count ||| word >>> (32 - count)) &&& 0xFFFFFFFF

def shiftXor (word count : UInt64) : UInt64 :=
  word ^^^ word >>> count

structure Pair where
  low : UInt64
  high : UInt64
deriving DecidableEq, Repr

def product (left right : UInt64) : Pair :=
  let whole := left.toNat * right.toNat
  ⟨UInt64.ofNat whole, UInt64.ofNat (whole >>> 64)⟩

def foldedProduct (left right : UInt64) : UInt64 :=
  let whole := product left right
  whole.low ^^^ whole.high

def lowHalf (word : UInt64) : UInt64 :=
  word &&& 0xFFFFFFFF

def highHalf (word : UInt64) : UInt64 :=
  word >>> 32

def avalanche (word : UInt64) : UInt64 :=
  shiftXor (shiftXor word 37 * mixFirst) 32

def avalancheShort (word : UInt64) : UInt64 :=
  shiftXor (shiftXor (shiftXor word 33 * prime64Second) 29 * prime64Third) 32

def secretPair (offset : Nat) : UInt64 :=
  word64 secret offset ^^^ word64 secret (offset + 8)

/-! ### Short inputs -/

def hashEmpty : Pair :=
  ⟨avalancheShort (secretPair 64), avalancheShort (secretPair 80)⟩

def hashUpToThree (input : ByteArray) : Pair :=
  let size := input.size
  let low := byteAt input 0 <<< 16 ||| byteAt input (size / 2) <<< 24 |||
    byteAt input (size - 1) ||| UInt64.ofNat size <<< 8
  let high := rotate32 (reverse32 low) 13
  ⟨avalancheShort (low ^^^ (word32 secret 0 ^^^ word32 secret 4)),
    avalancheShort (high ^^^ (word32 secret 8 ^^^ word32 secret 12))⟩

def hashUpToEight (input : ByteArray) : Pair :=
  let size := input.size
  let word := word32 input 0 + word32 input (size - 4) <<< 32
  let mixed := product (word ^^^ secretPair 16) (prime64First + UInt64.ofNat size <<< 2)
  let high := mixed.high + mixed.low <<< 1
  let low := mixed.low ^^^ high >>> 3
  ⟨shiftXor (shiftXor low 35 * mixSecond) 28, avalanche high⟩

def hashUpToSixteen (input : ByteArray) : Pair :=
  let size := input.size
  let first := word64 input 0
  let last := word64 input (size - 8)
  let mixed := product (first ^^^ last ^^^ secretPair 32) prime64First
  let low := mixed.low + UInt64.ofNat (size - 1) <<< 54
  let last := last ^^^ secretPair 48
  let high := mixed.high + last + lowHalf last * (prime32Second - 1)
  let low := low ^^^ reverse64 high
  let mixed := product low prime64Second
  ⟨avalanche mixed.low, avalanche (mixed.high + high * prime64Second)⟩

def mixSixteen (input : ByteArray) (offset secretOffset : Nat) : UInt64 :=
  foldedProduct (word64 input offset ^^^ word64 secret secretOffset)
    (word64 input (offset + 8) ^^^ word64 secret (secretOffset + 8))

def mixThirtyTwo (input : ByteArray) (gathered : Pair) (first second secretOffset : Nat) : Pair :=
  ⟨(gathered.low + mixSixteen input first secretOffset) ^^^
      (word64 input second + word64 input (second + 8)),
    (gathered.high + mixSixteen input second (secretOffset + 16)) ^^^
      (word64 input first + word64 input (first + 8))⟩

def finishMiddle (size : Nat) (gathered : Pair) : Pair :=
  let low := gathered.low + gathered.high
  let high := gathered.low * prime64First + gathered.high * prime64Fourth +
    UInt64.ofNat size * prime64Second
  ⟨avalanche low, 0 - avalanche high⟩

/-- Seventeen to 128 bytes, from the outside inwards and the innermost first. -/
def hashUpTo128 (input : ByteArray) : Pair :=
  let size := input.size
  let rounds := (size - 1) / 32
  let gathered := (List.range (rounds + 1)).reverse.foldl
    (fun gathered round =>
      mixThirtyTwo input gathered (16 * round) (size - 16 * (round + 1)) (32 * round))
    ⟨UInt64.ofNat size * prime64First, 0⟩
  finishMiddle size gathered

def hashUpTo240 (input : ByteArray) : Pair :=
  let size := input.size
  let early := (List.range 4).foldl
    (fun gathered round =>
      mixThirtyTwo input gathered (32 * round) (32 * round + 16) (32 * round))
    ⟨UInt64.ofNat size * prime64First, 0⟩
  let late := (List.range (size / 32 - 4)).foldl
    (fun gathered round =>
      mixThirtyTwo input gathered (32 * (round + 4)) (32 * (round + 4) + 16) (32 * round + 3))
    ⟨avalanche early.low, avalanche early.high⟩
  finishMiddle size (mixThirtyTwo input late (size - 16) (size - 32) 103)

/-! ### Longer inputs -/

abbrev Lanes := Vector UInt64 8

def initialLanes : Lanes :=
  #v[prime32Third, prime64First, prime64Second, prime64Third,
    prime64Fourth, prime32Second, prime64Fifth, prime32First]

/-- Gathers a stripe of sixty-four bytes. Each lane also takes the plain word of its neighbour. -/
def gather (input : ByteArray) (lanes : Lanes) (offset secretOffset : Nat) : Lanes :=
  Vector.ofFn fun lane =>
    let own := word64 input (offset + 8 * lane) ^^^ word64 secret (secretOffset + 8 * lane)
    let neighbour := word64 input (offset + 8 * (lane.val ^^^ 1))
    lanes[lane] + neighbour + lowHalf own * highHalf own

def scramble (lanes : Lanes) : Lanes :=
  Vector.ofFn fun lane =>
    (shiftXor lanes[lane] 47 ^^^ word64 secret (128 + 8 * lane)) * prime32First

def gatherStripes (input : ByteArray) (offset count : Nat) (lanes : Lanes) : Lanes :=
  (List.range count).foldl
    (fun lanes stripe => gather input lanes (offset + 64 * stripe) (8 * stripe)) lanes

/-- A block is sixteen stripes. The bytes behind the last whole block are gathered
in whole stripes, and the last sixty-four bytes once more. -/
def gatherAll (input : ByteArray) : Lanes :=
  let size := input.size
  let blocks := (size - 1) / 1024
  let lanes := (List.range blocks).foldl
    (fun lanes block => scramble (gatherStripes input (1024 * block) 16 lanes)) initialLanes
  let lanes := gatherStripes input (1024 * blocks) ((size - 1 - 1024 * blocks) / 64) lanes
  gather input lanes (size - 64) 121

def mergeLanes (lanes : Lanes) (secretOffset : Nat) (start : UInt64) : UInt64 :=
  let pair (first second : UInt64) (offset : Nat) :=
    foldedProduct (first ^^^ word64 secret offset) (second ^^^ word64 secret (offset + 8))
  avalanche <| start + pair lanes[0] lanes[1] secretOffset +
    pair lanes[2] lanes[3] (secretOffset + 16) +
    pair lanes[4] lanes[5] (secretOffset + 32) +
    pair lanes[6] lanes[7] (secretOffset + 48)

def hashLong (input : ByteArray) : Pair :=
  let lanes := gatherAll input
  let size := UInt64.ofNat input.size
  ⟨mergeLanes lanes 11 (size * prime64First),
    mergeLanes lanes 117 (size * prime64Second ^^^ 0xFFFFFFFFFFFFFFFF)⟩

def hash (input : ByteArray) : Pair :=
  let size := input.size
  if size = 0 then hashEmpty
  else if size ≤ 3 then hashUpToThree input
  else if size ≤ 8 then hashUpToEight input
  else if size ≤ 16 then hashUpToSixteen input
  else if size ≤ 128 then hashUpTo128 input
  else if size ≤ 240 then hashUpTo240 input
  else hashLong input

end SourceWeave.Xxh3
