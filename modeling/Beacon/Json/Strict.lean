import Beacon.Json.Value
import Beacon.Number.Binary64

/-
  Strict values. A value that is kept for later is read in full: every string and
  every key must have a text, every number must be within the range of binary64,
  and arrays and objects may be nested only so deep. A value that is passed over
  need not meet any of this.
-/

namespace Beacon.Json

/-! ## Numbers -/

/-- A number as digits times a power of ten, the sign aside. -/
structure Scientific where
  digits : Nat
  exponent : Int

/-- Puts digits behind a number for as long as it stays below `2 ^ 64`: the number,
and the digits that are left over. -/
def takeDigits : Nat → List Char → Nat × List Char
  | n, [] => (n, [])
  | n, c :: cs =>
    let next := 10 * n + (Numeral.digitIn? 10 c).getD 0
    if next < UInt64.size then takeDigits next cs else (n, c :: cs)

def isExponentMark (c : Char) : Bool := c = 'e' || c = 'E'

/-- The number of a run of digits; none is zero. -/
def digitsValue (ds : List Char) : Nat := (Numeral.value? 10 ds).getD 0

def exponentValue : List Char → Int
  | '-' :: ds => -Int.ofNat (digitsValue ds)
  | ds => Int.ofNat (digitsValue (Numeral.unsigned ds))

/-- The number that a lexeme writes, the sign aside. Digits that are left over count
as zeros in front of the point, and not at all behind it. -/
def scientific (lexeme : List Char) : Scientific :=
  let s := lexeme.dropWhile (· = '-')
  let mantissa := s.takeWhile (!isExponentMark ·)
  let whole := mantissa.takeWhile (· ≠ '.')
  let fraction := (mantissa.drop whole.length).drop 1
  let front := takeDigits 0 whole
  let back := takeDigits front.1 fraction
  let places := fraction.length - back.2.length
  { digits := back.1
    exponent := exponentValue ((s.drop mantissa.length).drop 1)
      + Int.ofNat front.2.length - Int.ofNat places }

/-- The least number too large for binary64: half a unit above the largest. -/
def overflowBound : Nat := Nat.pow 2 1024 - Nat.pow 2 970

/-- Whether a number is within the range: the product of its digits and its power of
ten, each rounded to binary64, is below the bound. A power of ten above `10 ^ 308`
is out of range for any digits but zero, and one below one never is. -/
def Scientific.inRange (x : Scientific) : Bool :=
  if x.digits = 0 ∨ x.exponent < 0 then true
  else if 308 < x.exponent then false
  else Binary64.ofNat x.digits * Binary64.ofNat (Nat.pow 10 x.exponent.toNat) < overflowBound

/-! ## Values -/

/-- How deep arrays and objects may be nested inside a member. -/
def maxNesting : Nat := 126

mutual

/-- Whether a value is strict, with so much nesting left. -/
def strictWithin : (nesting : Nat) → Json → Bool
  | _, .number lexeme => (scientific lexeme).inRange
  | _, .string lexeme => (unescape lexeme).isSome
  | 0, .array _ => false
  | n + 1, .array items => allStrict n items
  | 0, .object _ => false
  | n + 1, .object members => allMembersStrict n members
  | _, .broken => false
  | _, _ => true

def allStrict : (nesting : Nat) → List Json → Bool
  | _, [] => true
  | n, v :: vs => strictWithin n v && allStrict n vs

def allMembersStrict : (nesting : Nat) → List (List Char × Json) → Bool
  | _, [] => true
  | n, (key, v) :: ms => (unescape key).isSome && strictWithin n v && allMembersStrict n ms

end

def isStrict (v : Json) : Bool := strictWithin maxNesting v

end Beacon.Json
