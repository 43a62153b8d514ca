import Beacon.Delay.Squaring

/-
  The curve secp256k1: points with `y² = x³ + 7` over the field of `p` elements,
  a group of prime order `order`. A point is kept with a common denominator: its
  coordinates are `x / z²` and `y / z³`, and `z = 0` is the neutral point. Only
  the last step of a computation divides.
-/

namespace Beacon.Curve

/-- The size of the field. -/
def p : Nat := 0xfffffffffffffffffffffffffffffffffffffffffffffffffffffffefffffc2f

/-- The order of the group. -/
def order : Nat := 0xfffffffffffffffffffffffffffffffebaaedce6af48a03bbfd25e8cd0364141

/-- A point, its coordinates over `z²` and `z³`. -/
structure Point where
  x : Nat
  y : Nat
  z : Nat

def neutral : Point := ⟨1, 1, 0⟩

/-- The base point of signatures. -/
def generator : Point :=
  { x := 0x79be667ef9dcbbac55a06295ce870b07029bfcdb2dce28d959f2815b16f81798
    y := 0x483ada7726a3c4655da4fbfc0e1108a8fd17b448a68554199c47d08ffb10d4b8
    z := 1 }

def mul (a b : Nat) : Nat := a * b % p

def sub (a b : Nat) : Nat := (a + (p - b % p)) % p

/-- The inverse modulo a prime; zero has the inverse zero. -/
def inverse (prime a : Nat) : Nat := Delay.powerMod prime (a % prime) (prime - 2)

def double (q : Point) : Point :=
  if q.z = 0 then neutral
  else
    let yy := mul q.y q.y
    let s := 4 * mul q.x yy % p
    let m := 3 * mul q.x q.x % p
    let x := sub (mul m m) (2 * s)
    { x
      y := sub (mul m (sub s x)) (8 * mul yy yy)
      z := 2 * mul q.y q.z % p }

def add (a b : Point) : Point :=
  if a.z = 0 then b
  else if b.z = 0 then a
  else
    let za := mul a.z a.z
    let zb := mul b.z b.z
    let ua := mul a.x zb
    let ub := mul b.x za
    let sa := mul a.y (mul zb b.z)
    let sb := mul b.y (mul za a.z)
    if ua = ub then
      if sa = sb then double a else neutral
    else
      let h := sub ub ua
      let r := sub sb sa
      let hh := mul h h
      let hhh := mul h hh
      let w := mul ua hh
      let x := sub (sub (mul r r) hhh) (2 * w)
      { x
        y := sub (mul r (sub w x)) (mul sa hhh)
        z := mul h (mul a.z b.z) }

/-- The sum of the points named by two bits. -/
def pick (a b ab : Point) : Bool → Bool → Point
  | false, false => neutral
  | true, false => a
  | false, true => b
  | true, true => ab

/-- The point `acc` shifted by the low bits of both numbers, with the multiples of `a` and
`b` that those bits name. -/
def combineBits (a b ab : Point) (j k : Nat) : Nat → Point → Point
  | 0, acc => acc
  | n + 1, acc =>
    combineBits a b ab j k n (add (double acc) (pick a b ab (j.testBit n) (k.testBit n)))

/-- The sum of `j` times `a` and `k` times `b`, for numbers of at most 256 bits. -/
def combine (j : Nat) (a : Point) (k : Nat) (b : Point) : Point :=
  combineBits a b (add a b) j k 256 neutral

/-- The multiple `k` of a point, for a number of at most 256 bits. -/
def times (k : Nat) (a : Point) : Point := combine k a 0 neutral

/-- The coordinates of a point; the neutral point has none. -/
def coordinates? (q : Point) : Option (Nat × Nat) :=
  if q.z = 0 then none
  else
    let w := inverse p q.z
    let ww := mul w w
    some (mul q.x ww, mul q.y (mul ww w))

/-- The point with the given first coordinate whose second is odd or even. -/
def lift? (x : Nat) (odd : Bool) : Option Point :=
  if p ≤ x then none
  else
    let yy := (x * mul x x + 7) % p
    let y := Delay.powerMod p yy ((p + 1) / 4)
    if mul y y ≠ yy then none
    else some { x, y := if (y % 2 = 1) = odd then y else (p - y) % p, z := 1 }

end Beacon.Curve
