import Beacon.Address
import Beacon.Digest.Keccak

/-
  Two-stage commitments. An operator commits to a secret by publishing its second
  stage, the digest of the digest of the secret. The first stage is disclosed
  when the commits are closed, the secret when the operator's turn comes.

  On the wire and on disk the first stage is called `cos`, the second `cvs`.
-/

namespace Beacon

def firstStage (secret : Word) : Word := keccak256 secret.bytes

/-- The second stage, made from the first. -/
def secondStage (cos : Word) : Word := keccak256 cos.bytes

/-- Whether a disclosed first stage opens a published second stage. -/
def cosOpens (cvs cos : Word) : Bool := secondStage cos == cvs

/-- Whether a revealed secret opens a published second stage. -/
def secretOpens (cvs secret : Word) : Bool := cosOpens cvs (firstStage secret)

/-- A secret of one operator for one round, with both stages. -/
structure Commitment where
  round : UInt64
  operator : Address
  secret : Word
  cos : Word
  cvs : Word
  deriving DecidableEq

/-- Why a commitment is not made, or is not bound to its secret. -/
inductive CommitmentError where
  | noRandomness (reason : String)
  | firstStageMismatch
  | secondStageMismatch
  deriving DecidableEq

def CommitmentError.message : CommitmentError → String
  | .noRandomness reason => "randomness source failure: " ++ reason
  | .firstStageMismatch => "first-stage hash doesn't match secret"
  | .secondStageMismatch => "second-stage hash doesn't match first stage"

def CommitmentError.code : CommitmentError → String
  | .noRandomness _ => "Rng"
  | .firstStageMismatch => "FirstStageMismatch"
  | .secondStageMismatch => "SecondStageMismatch"

namespace Commitment

def ofSecret (round : UInt64) (operator : Address) (secret : Word) : Commitment :=
  { round, operator, secret
    cos := firstStage secret
    cvs := secondStage (firstStage secret) }

/-- The secret drawn for an operator in a round from the time in seconds and a
random word; times before zero count as zero. -/
def drawSecret (round : UInt64) (operator : Address) (seconds : Int) (nonce : Word) : Word :=
  digest [] [.number round, .raw operator.octets.bytes, .number (UInt64.ofNat seconds.toNat),
    .word nonce]

def draw (round : UInt64) (operator : Address) (seconds : Int) (nonce : Word) : Commitment :=
  ofSecret round operator (drawSecret round operator seconds nonce)

/-- Checks that both stages follow from the secret. -/
def checkBinding (c : Commitment) : Except CommitmentError Unit :=
  if firstStage c.secret ≠ c.cos then .error .firstStageMismatch
  else if secondStage (firstStage c.secret) ≠ c.cvs then .error .secondStageMismatch
  else .ok ()

end Commitment

end Beacon
