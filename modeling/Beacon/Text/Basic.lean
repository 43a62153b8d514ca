import Beacon.Text.Hex

/-
  Text as it is read and written by the program: white space, numbers, and the
  positions that errors name.

  A character is blank if it has the property White_Space of the Unicode standard:
  twenty-five characters in ten ranges.

  Naturals are written in decimal with the fewest digits. Two forms are read: a
  64-bit number is one or more decimal digits behind an optional plus sign; a
  number of any size is written in a base of at most sixteen, digits of either
  case, behind an optional plus sign, with underscores allowed anywhere but in
  front.

  The position of an error is its line and its column, both below `2 ^ 64`, and it
  is written behind the wording of the error. A wording that itself ends in a
  position is divided there: the words in front are the wording.
-/

namespace Beacon.Text

/-- The ranges of blank characters, both ends included. -/
def blankRanges : List (Nat × Nat) :=
  [(0x09, 0x0d), (0x20, 0x20), (0x85, 0x85), (0xa0, 0xa0), (0x1680, 0x1680),
   (0x2000, 0x200a), (0x2028, 0x2029), (0x202f, 0x202f), (0x205f, 0x205f), (0x3000, 0x3000)]

def isBlank (c : Char) : Bool :=
  blankRanges.any fun r => r.1 ≤ c.toNat && c.toNat ≤ r.2

def trimStart (cs : List Char) : List Char := cs.dropWhile isBlank

def trim (cs : List Char) : List Char := (trimStart (trimStart cs).reverse).reverse

end Beacon.Text

namespace Beacon.Numeral

/-- The digits of a number in a base of at least two, least significant first;
zero has none. -/
def lowDigits (base x : Nat) : List Char :=
  if _ : 2 ≤ base ∧ x ≠ 0 then Hex.digit (x % base) :: lowDigits base (x / base) else []
termination_by x
decreasing_by exact Nat.div_lt_self (by omega) (by omega)

/-- The digits of a number, most significant first; zero is one digit. -/
def digits (base x : Nat) : List Char :=
  if x = 0 then ['0'] else (lowDigits base x).reverse

def decimal (x : Nat) : List Char := digits 10 x

def decimalText (x : Nat) : String := String.ofList (decimal x)

def digitIn? (base : Nat) (c : Char) : Option Nat :=
  (Hex.value? c).filter (· < base)

/-- The value of a run of digits, continued from `acc`; any other character
makes it unreadable. -/
def valueFrom? (base : Nat) : Nat → List Char → Option Nat
  | acc, [] => some acc
  | acc, c :: cs => (digitIn? base c).bind fun d => valueFrom? base (acc * base + d) cs

def value? (base : Nat) : List Char → Option Nat
  | [] => none
  | cs => valueFrom? base 0 cs

/-- The text behind one plus sign, if it starts with one. -/
def unsigned : List Char → List Char
  | '+' :: cs => cs
  | cs => cs

/-- A 64-bit number: decimal digits behind an optional plus sign. -/
def parseUInt64 (s : String) : Option UInt64 :=
  (value? 10 (unsigned s.toList)).bind fun x => if x < UInt64.size then some (UInt64.ofNat x) else none

/-- A number of any size in a base: behind an optional plus sign a first
character other than an underscore, then digits and underscores. -/
def parseLarge (base : Nat) (cs : List Char) : Option Nat :=
  match unsigned cs with
  | [] => none
  | '_' :: _ => none
  | ds => valueFrom? base 0 (ds.filter (· ≠ '_'))

end Beacon.Numeral

namespace Beacon.Position

/-- Whether a text is one or more decimal digits of a number below `2 ^ 64`. -/
def isCount (ds : List Char) : Bool := (Numeral.value? 10 ds).any (· < UInt64.size)

def isColumn (s : List Char) : Bool := (" column ".toList.isPrefixOf? s).any isCount

/-- Whether a text is a line behind its name, and a column. -/
def isPosition (s : List Char) : Bool :=
  (" at line ".toList.isPrefixOf? s).any fun s =>
    let line := s.takeWhile Char.isDigit
    isCount line && isColumn (s.drop line.length)

/-- The words in front of the position that a text ends in; all of it, if it ends in
none. -/
def words : List Char → List Char
  | [] => []
  | c :: cs => if isPosition (c :: cs) then [] else c :: words cs

/-- A wording without the position that it ends in. -/
def wording (s : String) : String := String.ofList (words s.toList)

end Beacon.Position
