import Beacon.Digest.Keccak

/-
  The order of reveals. It follows from the disclosed first stages alone: the
  combined value is the digest of all of them in commit order, and operators
  reveal in ascending distance of their first stage from it, ties in commit order.
-/

namespace Beacon

/-- The combined value and the places of the commits in order of reveal. -/
structure RevealOrder where
  combined : Word
  order : List Nat
  deriving DecidableEq

inductive OrderError where
  | empty
  deriving DecidableEq

def OrderError.message : OrderError → String
  | .empty => "cannot determine a reveal order over zero commitments"

def OrderError.code : OrderError → String
  | .empty => "Empty"

namespace RevealOrder

/-- The digest of all first stages in commit order. -/
def combine (cos : List Word) : Word := keccak256 (cos.flatMap Octets.bytes)

def distance (a b : Nat) : Nat := if a < b then b - a else a - b

/-- The distance of each first stage from the target, with its place. -/
def entries (target : Nat) (cos : List Word) : List (Nat × Nat) :=
  cos.mapIdx fun i c => (distance c.toNat target, i)

def nearer (a b : Nat × Nat) : Bool := a.1 ≤ b.1

/-- The order of reveals over the first stages in commit order. -/
def determine (cos : List Word) : Except OrderError RevealOrder :=
  if cos = [] then .error .empty
  else
    let combined := combine cos
    .ok { combined, order := ((entries combined.toNat cos).mergeSort nearer).map (·.2) }

/-- The place in the order at which a commit is revealed. -/
def positionOf (o : RevealOrder) (index : Nat) : Option Nat := o.order.findIdx? (· == index)

end RevealOrder

end Beacon
