import Beacon.Octets

/-
  The Keccak-f[1600] permutation and the two sponge digests built on it. A state
  is twenty-five 64-bit lanes, the lane of column `x` and row `y` at place
  `x + 5 y`. Both digests absorb blocks of 136 bytes and give a word; they differ
  in the byte that ends the message: 1 for `keccak256`, 6 for `sha3`.

  A transcript is the byte string that signatures, secrets and puzzles are hashed
  from: a tag followed by segments; a number takes a whole word, most significant
  byte first, and the order of the segments is part of it.
-/

namespace Beacon.Keccak

/-- Twenty-five lanes of 64 bits. -/
abbrev State := Vector UInt64 25

/-- The lane at a place, counted round the state. -/
def lane (a : State) (k : Nat) : UInt64 := a.get ⟨k % 25, Nat.mod_lt _ (by decide)⟩

/-- A lane turned left by fewer than 64 bits. -/
def rotate (x : UInt64) (k : Nat) : UInt64 :=
  if k = 0 then x else (x <<< UInt64.ofNat k) ||| (x >>> UInt64.ofNat (64 - k))

/-- How far the lane at each place is turned. -/
def offsets : Vector Nat 25 :=
  #v[0, 1, 62, 28, 27, 36, 44, 6, 55, 20, 3, 10, 43, 25, 39, 41, 45, 15, 21, 8, 18, 2, 61, 56, 14]

/-- What each of the twenty-four rounds adds to the first lane. -/
def roundConstants : List UInt64 :=
  [0x0000000000000001, 0x0000000000008082, 0x800000000000808a, 0x8000000080008000,
   0x000000000000808b, 0x0000000080000001, 0x8000000080008081, 0x8000000000008009,
   0x000000000000008a, 0x0000000000000088, 0x0000000080008009, 0x000000008000000a,
   0x000000008000808b, 0x800000000000008b, 0x8000000000008089, 0x8000000000008003,
   0x8000000000008002, 0x8000000000000080, 0x000000000000800a, 0x800000008000000a,
   0x8000000080008081, 0x8000000000008080, 0x0000000080000001, 0x8000000080008008]

def parities (a : State) : Vector UInt64 5 :=
  .ofFn fun x => lane a x ^^^ lane a (x + 5) ^^^ lane a (x + 10) ^^^ lane a (x + 15) ^^^ lane a (x + 20)

/-- Adds to every lane the parities of the two neighbouring columns. -/
def theta (a : State) : State :=
  let c := parities a
  .ofFn fun i =>
    a.get i ^^^ c.get ⟨(i.val + 4) % 5, Nat.mod_lt _ (by decide)⟩ ^^^
      rotate (c.get ⟨(i.val + 1) % 5, Nat.mod_lt _ (by decide)⟩) 1

/-- Turns every lane by its offset and moves it to its new place. -/
def rhoPi (a : State) : State :=
  .ofFn fun j =>
    let k := (j.val % 5 + 3 * (j.val / 5)) % 5 + 5 * (j.val % 5)
    rotate (lane a k) (offsets.get ⟨k % 25, Nat.mod_lt _ (by decide)⟩)

/-- Mixes each lane with the two after it in its row. -/
def chi (a : State) : State :=
  .ofFn fun i =>
    let row := i.val / 5 * 5
    a.get i ^^^ (~~~ lane a (row + (i.val + 1) % 5) &&& lane a (row + (i.val + 2) % 5))

def round (a : State) (c : UInt64) : State :=
  let b := chi (rhoPi (theta a))
  b.set 0 (lane b 0 ^^^ c)

def permute (a : State) : State := roundConstants.foldl round a

/-- The bytes of a digest's block. -/
def rate : Nat := 136

/-- The lane that eight bytes write at a place of a block. -/
def blockLane (block : Bytes) (k : Nat) : UInt64 :=
  UInt64.ofNat (ofLittleEndian ((block.drop (8 * k)).take 8))

def absorbBlock (a : State) (block : Bytes) : State :=
  let lanes := (List.range 17).map (blockLane block)
  permute (.ofFn fun i => a.get i ^^^ lanes.getD i 0)

/-- Absorbs the given number of blocks from the front of the bytes. -/
def absorb : Nat → State → Bytes → State
  | 0, a, _ => a
  | n + 1, a, bs => absorb n (absorbBlock a (bs.take rate)) (bs.drop rate)

/-- The message extended to whole blocks: the ending byte, zeros, and the top
bit of the last byte. -/
def pad (ending : UInt8) (message : Bytes) : Bytes :=
  let free := rate - message.length % rate
  if free = 1 then message ++ [ending ||| 0x80]
  else message ++ ending :: (List.replicate (free - 2) 0 ++ [0x80])

def firstWord (a : State) : Word :=
  ⟨littleEndian 8 (lane a 0).toNat ++ littleEndian 8 (lane a 1).toNat ++
    littleEndian 8 (lane a 2).toNat ++ littleEndian 8 (lane a 3).toNat, by simp⟩

def sponge (ending : UInt8) (message : Bytes) : Word :=
  firstWord (absorb (message.length / rate + 1) (.replicate 25 0) (pad ending message))

end Beacon.Keccak

namespace Beacon

def keccak256 (message : Bytes) : Word := Keccak.sponge 0x01 message

def sha3 (message : Bytes) : Word := Keccak.sponge 0x06 message

def sha3Pair (left right : Word) : Word := sha3 (left.bytes ++ right.bytes)

inductive Segment where
  | raw (bytes : Bytes)
  | number (value : UInt64)
  | word (value : Word)
  | padded (bytes : Bytes)

/-- The bytes of a segment: raw bytes as they are, a number as a word, and padded
bytes filled up on the left to whole words. -/
def Segment.bytes : Segment → Bytes
  | .raw bytes => bytes
  | .number value => (Word.ofUInt64 value).bytes
  | .word value => value.bytes
  | .padded bytes => padToWords bytes

def transcript (tag : Bytes) (segments : List Segment) : Bytes :=
  tag ++ segments.flatMap Segment.bytes

/-- The Keccak-256 digest of a transcript. -/
def digest (tag : Bytes) (segments : List Segment) : Word :=
  keccak256 (transcript tag segments)

end Beacon
