import Beacon.Octets

/-
  Hexadecimal text. A byte is two digits, the high half first. Writing uses
  lower-case digits behind one `0x` mark; reading takes digits of either case
  behind any number of marks, none included.
-/

namespace Beacon.Hex

/-- The lower-case digit of a number below sixteen. -/
def digit (d : Nat) : Char :=
  if d < 10 then Char.ofNat (48 + d) else Char.ofNat (87 + d)

/-- The value of a digit of either case. -/
def value? (c : Char) : Option Nat :=
  if '0' ≤ c ∧ c ≤ '9' then some (c.toNat - 48)
  else if 'a' ≤ c ∧ c ≤ 'f' then some (c.toNat - 87)
  else if 'A' ≤ c ∧ c ≤ 'F' then some (c.toNat - 55)
  else none

/-- Two digits for each byte. -/
def encode : Bytes → List Char
  | [] => []
  | b :: bs => digit (b.toNat / 16) :: digit (b.toNat % 16) :: encode bs

/-- The bytes that pairs of digits write; an odd digit or any other character
makes the text unreadable. -/
def decode : List Char → Option Bytes
  | [] => some []
  | [_] => none
  | a :: b :: rest =>
    match value? a, value? b with
    | some x, some y => (decode rest).map (UInt8.ofNat (16 * x + y) :: ·)
    | _, _ => none

/-- The text behind every leading `0x`. -/
def unmarked : List Char → List Char
  | '0' :: 'x' :: rest => unmarked rest
  | cs => cs

/-- The digits of the bytes, without a mark. -/
def plain (bs : Bytes) : String := String.ofList (encode bs)

/-- The digits of the bytes behind the mark `0x`. -/
def marked (bs : Bytes) : String := String.ofList ('0' :: 'x' :: encode bs)

def parse (s : String) : Option Bytes := decode (unmarked s.toList)

/-- Exactly `n` bytes of a text with or without marks. -/
def parseOctets (n : Nat) (s : String) : Option (Octets n) :=
  (parse s).bind (Octets.ofBytes? n)

end Beacon.Hex
