import Beacon.Text.Basic

/-
  The delay function: `x` squared `T` times modulo `N`. Computing it takes `T`
  squarings one after the other. Arithmetic modulo zero has no result and is the
  error `zeroModulus`; a long evaluation can be stopped by a signal that is read
  before every 1024th squaring.
-/

namespace Beacon

/-- Why the delay function, a claim about it, or a proof of one is refused. -/
inductive DelayError where
  | zeroDelay
  | invalidModulus
  | outOfRange
  | cancelled
  | emptyProof
  | modulusMismatch (index : Nat)
  | malformedClaim (index : Nat)
  | brokenChain (index : Nat)
  | finalClaim
  | zeroModulus
  deriving DecidableEq

def DelayError.message : DelayError → String
  | .zeroDelay => "delay must be at least 1"
  | .invalidModulus => "modulus must be greater than 3"
  | .outOfRange => "value not in range [0, N)"
  | .cancelled => "evaluation cancelled"
  | .emptyProof => "proof is empty"
  | .modulusMismatch i => "claim " ++ Numeral.decimalText i ++ " uses a different modulus"
  | .malformedClaim i => "claim " ++ Numeral.decimalText i ++ " is malformed"
  | .brokenChain i => "claim " ++ Numeral.decimalText i ++ " does not follow from its predecessor"
  | .finalClaim => "final claim does not verify"
  | .zeroModulus => "modulus is zero"

def DelayError.code : DelayError → String
  | .zeroDelay => "ZeroDelay"
  | .invalidModulus => "InvalidModulus"
  | .outOfRange => "OutOfRange"
  | .cancelled => "Cancelled"
  | .emptyProof => "EmptyProof"
  | .modulusMismatch _ => "ModulusMismatch"
  | .malformedClaim _ => "MalformedClaim"
  | .brokenChain _ => "BrokenChain"
  | .finalClaim => "FinalClaim"
  | .zeroModulus => "ZeroModulus"

/-- The modulus and the number of squarings of a deployment. -/
structure DelayParams where
  modulus : Nat
  delay : UInt64
  deriving DecidableEq

/-- Parameters with at least one squaring and a modulus above three. -/
def DelayParams.check (modulus : Nat) (delay : UInt64) : Except DelayError DelayParams :=
  if delay = 0 then .error .zeroDelay
  else if modulus ≤ 3 then .error .invalidModulus
  else .ok ⟨modulus, delay⟩

namespace Delay

/-- The remainder modulo `n`, unless `n` is zero. -/
def reduce (x n : Nat) : Except DelayError Nat :=
  if n = 0 then .error .zeroModulus else .ok (x % n)

/-- Half of a delay, rounded up. -/
def half (t : UInt64) : UInt64 := t / 2 + t % 2

theorem toNat_half (t : UInt64) : (half t).toNat = (t.toNat + 1) / 2 := by
  have ht := t.toNat_lt
  simp only [half, UInt64.toNat_add, UInt64.toNat_div, UInt64.toNat_mod, UInt64.reduceToNat]
  omega

/-- A remainder squared the given number of times. -/
def squarings (n : Nat) : Nat → Nat → Nat
  | 0, y => y
  | t + 1, y => squarings n t (y * y % n)

/-- The delay function: `x` squared `t` times modulo `n`. -/
def evaluate (n x : Nat) (t : UInt64) : Except DelayError Nat :=
  (reduce x n).map (squarings n t.toNat)

/-- A signal to stop, as it stands when it is read before the squaring of the
given number. -/
abbrev StopSignal := Nat → Bool

def StopSignal.never : StopSignal := fun _ => false

/-- A signal that was given before the start, or never. -/
def StopSignal.fixed (given : Bool) : StopSignal := fun _ => given

/-- How many squarings pass between two looks at the signal. -/
def checkInterval : Nat := 1024

/-- The squarings still left, counted from squaring `i` on, unless the signal is
given. -/
def squaringsUntil (stop : StopSignal) (n : Nat) : Nat → Nat → Nat → Except DelayError Nat
  | 0, _, y => .ok y
  | left + 1, i, y =>
    if i % checkInterval = 0 && stop i then .error .cancelled
    else squaringsUntil stop n left (i + 1) (y * y % n)

/-- The delay function, stopped early once the signal is given. -/
def evaluateUntil (stop : StopSignal) (n x : Nat) (t : UInt64) : Except DelayError Nat :=
  (reduce x n).bind (squaringsUntil stop n t.toNat 0)

/-- The power `b ^ e` modulo `n`, by squaring. -/
def powerMod (n b e : Nat) : Nat :=
  if _ : e = 0 then 1 % n
  else
    let square := powerMod n (b * b % n) (e / 2)
    if e % 2 = 1 then square * b % n else square
termination_by e
decreasing_by omega

/-- The power `b ^ e` modulo `n`, unless `n` is zero. -/
def power (n b e : Nat) : Except DelayError Nat :=
  if n = 0 then .error .zeroModulus else .ok (powerMod n b e)

end Delay

end Beacon
