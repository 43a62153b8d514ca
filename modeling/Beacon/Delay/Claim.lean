import Beacon.Delay.Squaring
import Beacon.Digest.Keccak

/-
  Claims about the delay function and their proofs. A claim says that `y` is `x`
  squared `t` times modulo `n` and names the midpoint `v`, `x` squared half as
  often, rounded up. With the challenge `r` of the claim, its half is the claim
  about `x^r v` and `v^r y`, or `v^r y²` for an odd `t`. A proof is the list of
  halves down to one squaring, which anyone can check.

  Halving, proving and checking are written for any rule that draws challenges;
  `halve`, `generate` and `check` are these under the digest of the claim.
-/

namespace Beacon

/-- The claim that `y` is `x` squared `t` times modulo `n`, with the midpoint `v`. -/
structure DelayClaim where
  n : Nat
  x : Nat
  y : Nat
  t : UInt64
  v : Nat
  deriving DecidableEq

/-- A chain of claims, each the half of the one before. -/
structure DelayProof where
  claims : List DelayClaim
  deriving DecidableEq

/-- A rule for challenges: what is drawn for a base, a result and a midpoint. -/
abbrev ChallengeRule := Nat → Nat → Nat → Nat

namespace DelayClaim

/-- Whether the delay is positive and every value a remainder. -/
def wellFormed (c : DelayClaim) : Bool :=
  1 ≤ c.t && c.x < c.n && c.y < c.n && c.v < c.n

/-- The bytes of the three values a challenge is made from, each filled up on the
left to whole words. -/
def challengeBytes (x y v : Nat) : Bytes :=
  transcript [] [.padded (minimalBytes x), .padded (minimalBytes y), .padded (minimalBytes v)]

/-- The challenge of a claim: the upper half of the digest of its values. -/
def challenge (x y v : Nat) : Nat := (keccak256 (challengeBytes x y v)).toNat >>> 128

/-- The claim with its midpoint computed. -/
def construct (n x y : Nat) (t : UInt64) : Except DelayError DelayClaim :=
  if t = 0 then .error .zeroDelay
  else if n ≤ x ∨ n ≤ y then .error .outOfRange
  else (Delay.evaluate n x (Delay.half t)).map fun v => { n, x, y, t, v }

/-- The base and the result of the half of a claim under the challenge `r`. -/
def halveAt (c : DelayClaim) (r : Nat) : Except DelayError (Nat × Nat) := do
  let xr ← Delay.power c.n c.x r
  let x ← Delay.reduce (xr * c.v) c.n
  let vr ← Delay.power c.n c.v r
  let square ← Delay.reduce (c.y * c.y) c.n
  let y ← Delay.reduce (vr * if c.t % 2 = 0 then c.y else square) c.n
  return (x, y)

/-- The base and the result of the half of a claim under a rule for challenges. -/
def halveBy (rule : ChallengeRule) (c : DelayClaim) : Except DelayError (Nat × Nat) :=
  c.halveAt (rule c.x c.y c.v)

def halve (c : DelayClaim) : Except DelayError (Nat × Nat) := c.halveBy challenge

end DelayClaim

namespace DelayProof

/-- The claim about `t` squarings and all its halves. -/
def chain (rule : ChallengeRule) (n x y : Nat) (t : UInt64) : Except DelayError (List DelayClaim) :=
  (DelayClaim.construct n x y t).bind fun c =>
    if _ : 1 < t then
      (c.halveBy rule).bind fun next =>
        (chain rule n next.1 next.2 (Delay.half t)).map (c :: ·)
    else .ok [c]
termination_by t.toNat
decreasing_by
  rename_i h
  have ht : 1 < t.toNat := by simpa [UInt64.lt_iff_toNat_lt] using h
  rw [Delay.toNat_half]
  omega

/-- The proof of a claim under a rule for challenges. -/
def generateBy (rule : ChallengeRule) (c : DelayClaim) : Except DelayError DelayProof :=
  if !c.wellFormed then .error (.malformedClaim 0)
  else if 1 < c.t then
    (c.halveBy rule).bind fun next =>
      (chain rule c.n next.1 next.2 (Delay.half c.t)).map fun rest => ⟨c :: rest⟩
  else .ok ⟨[c]⟩

def generate (c : DelayClaim) : Except DelayError DelayProof := generateBy DelayClaim.challenge c

/-- Checks that every claim has the modulus `n` and is well formed, counting from
claim `i` on. -/
def checkForm (n : Nat) : Nat → List DelayClaim → Except DelayError Unit
  | _, [] => .ok ()
  | i, c :: rest =>
    if c.n ≠ n then .error (.modulusMismatch i)
    else if !c.wellFormed then .error (.malformedClaim i)
    else checkForm n (i + 1) rest

/-- Checks that every claim but the first is the half of the one before, counting
from claim `i` on. -/
def checkChain (rule : ChallengeRule) : Nat → List DelayClaim → Except DelayError Unit
  | i, c :: next :: rest =>
    if c.t = 1 then .error (.brokenChain (i + 1))
    else (c.halveBy rule).bind fun h =>
      if next.x ≠ h.1 ∨ next.y ≠ h.2 ∨ next.t ≠ Delay.half c.t then .error (.brokenChain (i + 1))
      else checkChain rule (i + 1) (next :: rest)
  | _, _ => .ok ()

/-- Checks a claim about one squaring. -/
def checkFinal (c : DelayClaim) : Except DelayError Unit :=
  (Delay.reduce (c.x * c.x) c.n).bind fun square =>
    if c.t ≠ 1 ∨ c.y ≠ square ∨ c.v ≠ c.y then .error .finalClaim else .ok ()

/-- Checks a proof under a rule for challenges: the form of every claim first, then
the chain, then the last claim. -/
def checkBy (rule : ChallengeRule) (p : DelayProof) : Except DelayError Unit :=
  match p.claims with
  | [] => .error .emptyProof
  | first :: rest => do
    checkForm first.n 0 (first :: rest)
    checkChain rule 0 (first :: rest)
    checkFinal ((first :: rest).getLastD first)

def check (p : DelayProof) : Except DelayError Unit := p.checkBy DelayClaim.challenge

/-- Whether a proof passes every check. -/
def verifies (p : DelayProof) : Bool := p.check.isOk

def first? (p : DelayProof) : Option DelayClaim := p.claims.head?

/-- The delay function of `x` with the proof of its result, stopped early once the
signal is given. -/
def prove (params : DelayParams) (x : Nat) (stop : Delay.StopSignal) :
    Except DelayError (Nat × DelayProof) := do
  let x ← Delay.reduce x params.modulus
  let y ← Delay.evaluateUntil stop params.modulus x params.delay
  let claim ← DelayClaim.construct params.modulus x y params.delay
  let proof ← generate claim
  return (y, proof)

end DelayProof

end Beacon
