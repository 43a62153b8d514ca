/-
  Octet strings: byte strings of a length fixed by their type, and the two ways
  a natural number is written as bytes.

  `Octets n` holds exactly `n` bytes. A 32-byte value is a `Word`: digests,
  secrets and both stages of a commitment are words. Numbers go to bytes least
  significant first (`littleEndian`) or most significant first (`bigEndian`),
  truncated to the length asked for, and come back by `ofLittleEndian` and
  `ofBigEndian`.
-/

namespace Beacon

abbrev Bytes := List UInt8

/-- A byte string of exactly `n` bytes. -/
structure Octets (n : Nat) where
  bytes : Bytes
  length_bytes : bytes.length = n
  deriving DecidableEq

abbrev Word := Octets 32

/-! ## Numbers as bytes -/

/-- The `n` low bytes of a number, least significant first. -/
def littleEndian : Nat → Nat → Bytes
  | 0, _ => []
  | n + 1, x => UInt8.ofNat x :: littleEndian n (x / 256)

/-- The `n` low bytes of a number, most significant first. -/
def bigEndian (n x : Nat) : Bytes := (littleEndian n x).reverse

def ofLittleEndian : Bytes → Nat
  | [] => 0
  | b :: bs => b.toNat + 256 * ofLittleEndian bs

def ofBigEndian (bs : Bytes) : Nat := ofLittleEndian bs.reverse

/-- How many bytes a number needs; zero needs one. -/
def byteLength (x : Nat) : Nat := x.log2 / 8 + 1

/-- The bytes of a number, most significant first, without leading zero bytes;
zero is the single byte 0. -/
def minimalBytes (x : Nat) : Bytes := bigEndian (byteLength x) x

@[simp] theorem length_littleEndian (n x : Nat) : (littleEndian n x).length = n := by
  induction n generalizing x with
  | zero => rfl
  | succ n ih => simp [littleEndian, ih]

@[simp] theorem length_bigEndian (n x : Nat) : (bigEndian n x).length = n := by
  simp [bigEndian]

/-! ## Fixed lengths -/

namespace Octets

@[ext] theorem ext {n : Nat} {a b : Octets n} (h : a.bytes = b.bytes) : a = b := by
  cases a; cases b; simp_all

/-- The bytes, if there are exactly `n` of them. -/
def ofBytes? (n : Nat) (bs : Bytes) : Option (Octets n) :=
  if h : bs.length = n then some ⟨bs, h⟩ else none

/-- The `n` low bytes of a number, most significant first. -/
def ofNat (n x : Nat) : Octets n := ⟨bigEndian n x, length_bigEndian n x⟩

/-- The number an octet string writes, most significant byte first. -/
def toNat {n : Nat} (a : Octets n) : Nat := ofBigEndian a.bytes

def zero (n : Nat) : Octets n := ⟨List.replicate n 0, by simp⟩

def append {m n : Nat} (a : Octets m) (b : Octets n) : Octets (m + n) :=
  ⟨a.bytes ++ b.bytes, by simp [a.length_bytes, b.length_bytes]⟩

def xor {n : Nat} (a b : Octets n) : Octets n :=
  ⟨List.zipWith (· ^^^ ·) a.bytes b.bytes, by simp [a.length_bytes, b.length_bytes]⟩

/-- The last `n` bytes of a longer octet string. -/
def last {m : Nat} (n : Nat) (a : Octets m) (h : n ≤ m) : Octets n :=
  ⟨a.bytes.drop (m - n), by simp [a.length_bytes]; omega⟩

end Octets

/-! ## Words -/

namespace Word

/-- A number of at most 64 bits as a word, most significant byte first. -/
def ofUInt64 (x : UInt64) : Word := Octets.ofNat 32 x.toNat

/-- At most 32 bytes, extended to a word by zeros on the left. -/
def ofShort? (bs : Bytes) : Option Word :=
  if h : bs.length ≤ 32 then
    some ⟨List.replicate (32 - bs.length) 0 ++ bs, by simp; omega⟩
  else none

def zero : Word := Octets.zero 32

end Word

/-- The bytes extended by zeros on the left to a whole number of words; no bytes
stay no bytes. -/
def padToWords (bs : Bytes) : Bytes :=
  List.replicate ((32 - bs.length % 32) % 32) 0 ++ bs

def utf8 (s : String) : Bytes := s.toUTF8.toList

end Beacon
