import Beacon.Commitment
import Beacon.Delay.Claim

/-
  Recovery of withheld secrets. A commitment is bound to a puzzle whose base is a
  square made from the round, the operator and the second stage. The operator
  publishes its secret sealed under the solution, and whoever spends the
  squarings can open the seal and prove the solution. A seal that opens to
  anything but the committed secret proves that the operator sealed garbage.
-/

namespace Beacon

/-- What is public of one operator's commitment. -/
structure Puzzle where
  round : UInt64
  operator : Address
  cvs : Word
  sealed : Word
  deriving DecidableEq

/-- A recovered secret and the proof of the puzzle's solution. -/
structure Recovery where
  round : UInt64
  operator : Address
  secret : Word
  proof : DelayProof
  deriving DecidableEq

/-- Why a puzzle cannot be solved or a recovery is refused. -/
inductive RecoveryError where
  | delay (cause : DelayError)
  | identityMismatch
  | wrongPuzzle
  | inconsistentSeal (round : UInt64) (operator : Address)
  | wrongSecret
  deriving DecidableEq

namespace RecoveryError

def message : RecoveryError → String
  | .delay cause => "vdf: " ++ cause.message
  | .identityMismatch => "proof is for a different round or operator"
  | .wrongPuzzle => "proof does not start from the puzzle"
  | .inconsistentSeal round operator =>
    "sealed secret of " ++ operator.text ++ " in round " ++ Numeral.decimalText round.toNat ++
      " is inconsistent with its commitment"
  | .wrongSecret => "proof secret does not match the unsealed secret"

def code : RecoveryError → String
  | .delay _ => "Vdf"
  | .identityMismatch => "IdentityMismatch"
  | .wrongPuzzle => "WrongPuzzle"
  | .inconsistentSeal _ _ => "InconsistentSeal"
  | .wrongSecret => "WrongSecret"

/-- Whether the error proves that the operator misbehaved, and not only that a
proof is bad. -/
def isFault : RecoveryError → Bool
  | .inconsistentSeal _ _ => true
  | _ => false

end RecoveryError

/-- A result of the delay function inside a recovery. -/
def RecoveryError.ofDelay {α : Type} (r : Except DelayError α) : Except RecoveryError α :=
  r.mapError .delay

@[simp] theorem RecoveryError.ofDelay_ok {α : Type} (a : α) : ofDelay (.ok a) = .ok a := rfl

@[simp] theorem RecoveryError.ofDelay_error {α : Type} (e : DelayError) :
    ofDelay (.error e : Except DelayError α) = .error (.delay e) := rfl

namespace Puzzle

def baseTag : Bytes := utf8 "DRB_RECOVERY_BASE_V1"

def padTag : Bytes := utf8 "DRB_RECOVERY_PAD_V1"

/-- The number a puzzle's base is squared from. -/
def seed (round : UInt64) (operator : Address) (cvs : Word) : Nat :=
  (digest baseTag [.number round, .word operator.word, .word cvs]).toNat

/-- The base of a puzzle: its seed squared modulo the modulus, but 4 in place of 0
and 1, which squaring leaves alone. -/
def baseOf (modulus : Nat) (round : UInt64) (operator : Address) (cvs : Word) :
    Except DelayError Nat := do
  let s ← Delay.reduce (seed round operator cvs) modulus
  let x ← Delay.reduce (s * s) modulus
  return if x < 2 then 4 else x

/-- The bytes that the pad of a solution is hashed from. -/
def pad (y : Nat) : Word := digest padTag [.padded (minimalBytes y)]

/-- Seals a secret under a solution, or opens a seal: both are the exclusive or
with the pad. -/
def applySeal (value : Word) (y : Nat) : Word := value.xor (pad y)

/-- Seals the secret of a commitment by solving its puzzle. -/
def sealSecret (params : DelayParams) (c : Commitment) (stop : Delay.StopSignal) :
    Except RecoveryError Word :=
  RecoveryError.ofDelay do
    let x ← baseOf params.modulus c.round c.operator c.cvs
    let y ← Delay.evaluateUntil stop params.modulus x params.delay
    return applySeal c.secret y

def base (p : Puzzle) (params : DelayParams) : Except DelayError Nat :=
  baseOf params.modulus p.round p.operator p.cvs

/-- The word under the seal of this puzzle, if it opens the commitment. -/
def opened (p : Puzzle) (y : Nat) : Except RecoveryError Word :=
  let secret := applySeal p.sealed y
  if secretOpens p.cvs secret then .ok secret else .error (.inconsistentSeal p.round p.operator)

/-- Solves the puzzle and proves the recovered secret. -/
def solve (p : Puzzle) (params : DelayParams) (stop : Delay.StopSignal) :
    Except RecoveryError Recovery := do
  let (y, proof) ← RecoveryError.ofDelay do
    let x ← p.base params
    DelayProof.prove params x stop
  let secret ← p.opened y
  return { round := p.round, operator := p.operator, secret, proof }

/-- Checks a recovery against this puzzle: whose it is, where its proof starts,
the proof, the seal, and last the secret it names. -/
def check (p : Puzzle) (params : DelayParams) (r : Recovery) : Except RecoveryError Word :=
  if r.round ≠ p.round ∨ r.operator ≠ p.operator then .error .identityMismatch
  else match r.proof.first? with
    | none => .error (.delay .emptyProof)
    | some first =>
      if first.n ≠ params.modulus ∨ first.t ≠ params.delay then .error .wrongPuzzle
      else do
        let x ← RecoveryError.ofDelay (p.base params)
        if first.x ≠ x then throw .wrongPuzzle
        RecoveryError.ofDelay r.proof.check
        let secret ← p.opened first.y
        if r.secret ≠ secret then throw .wrongSecret
        return secret

end Puzzle

end Beacon
