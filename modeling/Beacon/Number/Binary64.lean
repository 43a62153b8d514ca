/-
  Quotients in binary64. A natural number is rounded to 53 significant bits, and a
  quotient of two such numbers again, both to the nearest value with ties to the
  even one. Values here are exact: a `Dyadic` is a natural number divided or
  multiplied by a power of two.
-/

namespace Beacon

/-- The quotient of two numbers, rounded to the nearest; a tie goes to the even
one. -/
def roundDiv (a b : Nat) : Nat :=
  let q := a / b
  let r := a % b
  if 2 * r < b then q
  else if b < 2 * r then q + 1
  else q + q % 2

/-- The number `digits / 2 ^ places`. -/
structure Dyadic where
  digits : Nat
  places : Int
  deriving DecidableEq

namespace Dyadic

def numerator (d : Dyadic) : Nat := d.digits <<< (-d.places).toNat

def denominator (d : Dyadic) : Nat := 1 <<< d.places.toNat

/-- A multiple, rounded to the nearest natural number with ties to the even one. -/
def roundTimes (d : Dyadic) (factor : Nat) : Nat := roundDiv (d.numerator * factor) d.denominator

end Dyadic

namespace Binary64

def scaled (a b : Nat) (places : Int) : Nat :=
  roundDiv (a <<< places.toNat) (b <<< (-places).toNat)

/-- How many binary places give 53 significant bits, or one less. -/
def placesFor (a b : Nat) : Int := 52 - (a.log2 : Int) + (b.log2 : Int)

/-- The value of binary64 nearest to a quotient. -/
def nearest (a b : Nat) : Dyadic :=
  if a = 0 then ⟨0, 0⟩
  else
    let places := placesFor a b
    let wide := a <<< places.toNat < b <<< (52 + (-places).toNat)
    let places := if wide then places + 1 else places
    ⟨scaled a b places, places⟩

/-- The natural number of binary64 nearest to another. -/
def ofNat (a : Nat) : Nat := (nearest a 1).roundTimes 1

/-- The quotient of two natural numbers, computed in binary64. -/
def quotient (a b : Nat) : Dyadic := nearest (ofNat a) (ofNat b)

end Binary64

end Beacon
