import Beacon.Merkle
import Beacon.Recovery
import Beacon.RevealOrder

/-
  Rounds as the leader sees them: who committed, what each operator disclosed,
  the order of reveals, and where every operator stands.

  A round collects commits, then first stages, then reveals in the installed
  order, and is completed once every operator is resolved; it is abandoned if
  nobody commits. An operator is resolved when its secret was revealed or
  recovered, or its seal was proved inconsistent.

  Every operation gives the round afterwards and its answer. A refused operation
  leaves the round as it was, but closing the commits of a round without any
  abandons it.
-/

namespace Beacon

inductive Phase where
  | collectingCommits
  | collectingCos
  | orderDetermined
  | revealing
  | completed
  | abandoned
  deriving DecidableEq

inductive Standing where
  | committed
  | revealRequested
  | revealed
  | timedOut
  | recovering
  | recovered
  | faulted
  deriving DecidableEq

namespace Phase

def all : List Phase :=
  [.collectingCommits, .collectingCos, .orderDetermined, .revealing, .completed, .abandoned]

def name : Phase → String
  | .collectingCommits => "CollectingCommits"
  | .collectingCos => "CollectingCos"
  | .orderDetermined => "OrderDetermined"
  | .revealing => "Revealing"
  | .completed => "Completed"
  | .abandoned => "Abandoned"

/-- Whether a round in this phase is over. -/
def isFinished (p : Phase) : Bool := p = .completed || p = .abandoned

end Phase

namespace Standing

def all : List Standing :=
  [.committed, .revealRequested, .revealed, .timedOut, .recovering, .recovered, .faulted]

def name : Standing → String
  | .committed => "Committed"
  | .revealRequested => "RevealRequested"
  | .revealed => "Revealed"
  | .timedOut => "TimedOut"
  | .recovering => "Recovering"
  | .recovered => "Recovered"
  | .faulted => "Faulted"

/-- Whether nothing more is needed of the operator. -/
def isResolved (s : Standing) : Bool := s = .revealed || s = .recovered || s = .faulted

/-- Whether a secret is still awaited of the operator. -/
def awaitsSecret (s : Standing) : Bool := s = .revealRequested || s = .timedOut || s = .recovering

end Standing

/-- One operator's part in a round. -/
structure Participant where
  operator : Address
  commitIndex : Nat
  cvs : Word
  sealed : Word
  cos : Option Word
  secret : Option Word
  standing : Standing
  recovery : Option Recovery
  deriving DecidableEq

def Participant.puzzle (p : Participant) (round : UInt64) : Puzzle :=
  { round, operator := p.operator, cvs := p.cvs, sealed := p.sealed }

@[simp] theorem Participant.round_puzzle (p : Participant) (round : UInt64) :
    (p.puzzle round).round = round := rfl

@[simp] theorem Participant.operator_puzzle (p : Participant) (round : UInt64) :
    (p.puzzle round).operator = p.operator := rfl

@[simp] theorem Participant.cvs_puzzle (p : Participant) (round : UInt64) :
    (p.puzzle round).cvs = p.cvs := rfl

@[simp] theorem Participant.sealed_puzzle (p : Participant) (round : UInt64) :
    (p.puzzle round).sealed = p.sealed := rfl

/-- What a completed round hands on. -/
structure RoundOutcome where
  round : UInt64
  merkleRoot : Word
  combined : Option Word
  revealOrder : List Address
  secrets : List (Address × Word)
  recoveries : List Recovery
  faulted : List Address
  randomValue : Word
  deriving DecidableEq

/-- Why an operation on a round is refused. -/
inductive RoundError where
  | roundExists (round : UInt64)
  | unknownRound (round : UInt64)
  | wrongPhase (expected actual : Phase)
  | notEligible (operator : Address)
  | duplicateCommit (operator : Address)
  | notCommitted (operator : Address)
  | invalidCos (operator : Address)
  | invalidSecret (operator : Address)
  | notRequested (operator : Address)
  | alreadyResolved (operator : Address)
  | invalidState (operator : Address) (standing : Standing)
  | noCommits
  | orderMismatch
  | invalidRecovery (cause : RecoveryError)
  | incomplete
  deriving DecidableEq

def RoundError.message : RoundError → String
  | .roundExists round => "Round " ++ Numeral.decimalText round.toNat ++ " already exists"
  | .unknownRound round => "Round " ++ Numeral.decimalText round.toNat ++ " not found"
  | .wrongPhase expected actual =>
    "Round is in phase " ++ actual.name ++ ", expected " ++ expected.name
  | .notEligible operator => "Operator " ++ operator.text ++ " is not eligible"
  | .duplicateCommit operator => "Operator " ++ operator.text ++ " already committed"
  | .notCommitted operator => "Operator " ++ operator.text ++ " has not committed"
  | .invalidCos operator => "Invalid cos from " ++ operator.text
  | .invalidSecret operator => "Invalid secret from " ++ operator.text
  | .notRequested operator => "Reveal from " ++ operator.text ++ " was not requested"
  | .alreadyResolved operator => "Operator " ++ operator.text ++ " is already resolved"
  | .invalidState operator standing => "Operator " ++ operator.text ++ " is " ++ standing.name
  | .noCommits => "No commits"
  | .orderMismatch => "Reveal order does not match disclosed operators"
  | .invalidRecovery cause => "Invalid recovery: " ++ cause.message
  | .incomplete => "Round has unresolved operators"

def RoundError.code : RoundError → String
  | .roundExists _ => "RoundExists"
  | .unknownRound _ => "UnknownRound"
  | .wrongPhase _ _ => "WrongPhase"
  | .notEligible _ => "NotEligible"
  | .duplicateCommit _ => "DuplicateCommit"
  | .notCommitted _ => "NotCommitted"
  | .invalidCos _ => "InvalidCos"
  | .invalidSecret _ => "InvalidSecret"
  | .notRequested _ => "NotRequested"
  | .alreadyResolved _ => "AlreadyResolved"
  | .invalidState _ _ => "InvalidState"
  | .noCommits => "NoCommits"
  | .orderMismatch => "OrderMismatch"
  | .invalidRecovery _ => "InvalidRecovery"
  | .incomplete => "Incomplete"

/-- One round. The records are in commit order, and `cursor` is the place in the
order of the next operator to ask. -/
structure Round where
  id : UInt64
  phase : Phase
  eligible : List Address
  records : List Participant
  merkleRoot : Option Word
  combined : Option Word
  order : List Address
  cursor : Nat
  deriving DecidableEq

namespace Round

/-- A new round in which the given operators may commit. -/
def start (id : UInt64) (eligible : List Address) : Round :=
  { id
    phase := .collectingCommits
    eligible := eligible.eraseDups
    records := []
    merkleRoot := none
    combined := none
    order := []
    cursor := 0 }

/-! ## Views -/

def find? (r : Round) (operator : Address) : Option Participant :=
  r.records.find? (·.operator = operator)

def standingOf (r : Round) (operator : Address) : Option Standing :=
  (r.find? operator).map (·.standing)

/-- Whether an operator may commit. -/
def isEligible (r : Round) (operator : Address) : Bool := operator ∈ r.eligible

/-- The operators that committed, in commit order. -/
def committed (r : Round) : List Address := r.records.map (·.operator)

def allCommitted (r : Round) : Bool := r.records.length = r.eligible.length

/-- Whether every operator that committed disclosed its first stage. -/
def allCosReceived (r : Round) : Bool := r.records.all (·.cos.isSome)

/-- The disclosed first stages with their operators, in commit order. -/
def disclosed (r : Round) : List (Address × Word) :=
  r.records.filterMap fun p => p.cos.map fun cos => (p.operator, cos)

/-- Whether every operator is resolved and the reveals have begun. -/
def isComplete (r : Round) : Bool :=
  (r.phase = .revealing || r.phase = .completed) && r.records.all (·.standing.isResolved)

def modify (r : Round) (operator : Address) (change : Participant → Participant) : Round :=
  { r with records := r.records.map fun p => if p.operator = operator then change p else p }

def setStanding (r : Round) (operator : Address) (standing : Standing) : Round :=
  r.modify operator fun p => { p with standing }

/-! ## Commits -/

/-- Takes in a commit; the first one of an operator stays. The answer is its place. -/
def acceptCommit (r : Round) (operator : Address) (cvs sealed : Word) :
    Round × Except RoundError Nat :=
  if r.phase ≠ .collectingCommits then (r, .error (.wrongPhase .collectingCommits r.phase))
  else if !r.isEligible operator then (r, .error (.notEligible operator))
  else if (r.find? operator).isSome then (r, .error (.duplicateCommit operator))
  else
    let record : Participant :=
      { operator, commitIndex := r.records.length, cvs, sealed
        cos := none, secret := none, standing := .committed, recovery := none }
    ({ r with records := r.records ++ [record] }, .ok r.records.length)

/-- Closes the commits; the answer is the Merkle root over the second stages in
commit order. A round without commits is abandoned. -/
def closeCommits (r : Round) : Round × Except RoundError Word :=
  if r.phase ≠ .collectingCommits then (r, .error (.wrongPhase .collectingCommits r.phase))
  else match Beacon.merkleRoot (r.records.map (·.cvs)) with
    | .error _ => ({ r with phase := .abandoned }, .error .noCommits)
    | .ok root => ({ r with merkleRoot := some root, phase := .collectingCos }, .ok root)

/-! ## First stages -/

/-- Takes in a first stage; the answer is `false` for a repetition, which changes
nothing. -/
def acceptCos (r : Round) (operator : Address) (cos : Word) : Round × Except RoundError Bool :=
  if r.phase ≠ .collectingCos then (r, .error (.wrongPhase .collectingCos r.phase))
  else match r.find? operator with
    | none => (r, .error (.notCommitted operator))
    | some p =>
      if p.cos.isSome then (r, .ok false)
      else if !cosOpens p.cvs cos then (r, .error (.invalidCos operator))
      else (r.modify operator fun p => { p with cos := some cos }, .ok true)

/-- The record of an operator that did not disclose in time. -/
def Missing.mark (p : Participant) : Participant :=
  if p.cos.isNone && p.standing = .committed then { p with standing := .timedOut } else p

/-- Ends the wait for first stages; the answer lists the operators without one.
Those that did nothing else are timed out. -/
def closeCos (r : Round) : Round × Except RoundError (List Address) :=
  if r.phase ≠ .collectingCos then (r, .error (.wrongPhase .collectingCos r.phase))
  else
    ({ r with records := r.records.map Missing.mark },
      .ok ((r.records.filter (·.cos.isNone)).map (·.operator)))

/-- The combined value and the operators in the order that the disclosed first
stages determine. -/
def determineOrder (r : Round) : Except OrderError (RevealOrder × List Address) :=
  (RevealOrder.determine (r.disclosed.map (·.2))).map fun o =>
    (o, o.order.filterMap fun i => r.disclosed[i]?.map (·.1))

/-- Whether a list names each of the given operators once and nobody else. -/
def Covers (order operators : List Address) : Prop :=
  order.Nodup ∧ (∀ a ∈ order, a ∈ operators) ∧ ∀ a ∈ operators, a ∈ order

instance (order operators : List Address) : Decidable (Covers order operators) := by
  unfold Covers; infer_instance

/-- Fixes the order of reveals, which must name each operator that disclosed once
and nobody else. -/
def installOrder (r : Round) (combined : Option Word) (order : List Address) :
    Round × Except RoundError Unit :=
  if r.phase ≠ .collectingCos then (r, .error (.wrongPhase .collectingCos r.phase))
  else if Covers order (r.disclosed.map (·.1)) then
    ({ r with combined, order, cursor := 0, phase := .orderDetermined }, .ok ())
  else (r, .error .orderMismatch)

/-! ## Reveals -/

def beginRevealing (r : Round) : Round × Except RoundError Unit :=
  if r.phase ≠ .orderDetermined then (r, .error (.wrongPhase .orderDetermined r.phase))
  else ({ r with phase := .revealing }, .ok ())

/-- The first of the operators still ahead that only committed, asked for its
secret; the others are passed over. -/
def requestFirst : List Address → Round → Round × Option Address
  | [], r => (r, none)
  | a :: ahead, r =>
    let r := { r with cursor := r.cursor + 1 }
    if r.standingOf a = some .committed then (r.setStanding a .revealRequested, some a)
    else requestFirst ahead r

/-- The next operator to ask for its secret, if reveals have begun and there is
one. -/
def nextToRequest (r : Round) : Round × Option Address :=
  if r.phase ≠ .revealing then (r, none) else requestFirst (r.order.drop r.cursor) r

/-- Takes in a revealed secret, also a late one; the answer is where the operator
stood before. -/
def acceptReveal (r : Round) (operator : Address) (secret : Word) :
    Round × Except RoundError Standing :=
  if r.phase ≠ .revealing then (r, .error (.wrongPhase .revealing r.phase))
  else match r.find? operator with
    | none => (r, .error (.notCommitted operator))
    | some p =>
      if p.standing = .committed then (r, .error (.notRequested operator))
      else if p.standing.isResolved then (r, .error (.alreadyResolved operator))
      else if !secretOpens p.cvs secret then (r, .error (.invalidSecret operator))
      else
        (r.modify operator fun p => { p with secret := some secret, standing := .revealed },
          .ok p.standing)

/-- Ends the wait for an operator that was asked; the answer is `false` if it is
no longer awaited. -/
def markTimedOut (r : Round) (operator : Address) : Round × Except RoundError Bool :=
  match r.find? operator with
  | none => (r, .error (.notCommitted operator))
  | some p =>
    if p.standing ≠ .revealRequested then (r, .ok false)
    else (r.setStanding operator .timedOut, .ok true)

/-! ## Recoveries -/

/-- Starts the recovery of an operator that timed out; the answer is its puzzle. -/
def beginRecovery (r : Round) (operator : Address) : Round × Except RoundError Puzzle :=
  match r.find? operator with
  | none => (r, .error (.notCommitted operator))
  | some p =>
    if p.standing ≠ .timedOut then (r, .error (.invalidState operator p.standing))
    else (r.setStanding operator .recovering, .ok (p.puzzle r.id))

/-- Takes in a recovery from anyone; the answer is where the operator stands now.
A proof that the seal is inconsistent makes the operator faulted. -/
def applyRecovery (r : Round) (params : DelayParams) (proof : Recovery) :
    Round × Except RoundError Standing :=
  if r.phase = .collectingCommits ∨ r.phase = .abandoned then
    (r, .error (.wrongPhase .revealing r.phase))
  else match r.find? proof.operator with
    | none => (r, .error (.notCommitted proof.operator))
    | some p =>
      if p.standing.isResolved then (r, .error (.alreadyResolved proof.operator))
      else match (p.puzzle r.id).check params proof with
        | .ok secret =>
          (r.modify proof.operator fun p =>
            { p with secret := some secret, standing := .recovered, recovery := some proof },
            .ok .recovered)
        | .error e =>
          if e.isFault then (r.setStanding proof.operator .faulted, .ok .faulted)
          else (r, .error (.invalidRecovery e))

/-- Marks an operator faulted whose seal did not open. -/
def markFaulted (r : Round) (operator : Address) : Round × Except RoundError Unit :=
  match r.find? operator with
  | none => (r, .error (.notCommitted operator))
  | some p =>
    if p.standing.isResolved then (r, .error (.alreadyResolved operator))
    else (r.setStanding operator .faulted, .ok ())

/-! ## Outcome -/

/-- The secrets of the operators that are not faulted, in commit order. -/
def secrets (r : Round) : List (Address × Word) :=
  (r.records.filter (·.standing ≠ .faulted)).filterMap fun p =>
    p.secret.map fun secret => (p.operator, secret)

def faulted (r : Round) : List Address :=
  (r.records.filter (·.standing = .faulted)).map (·.operator)

/-- What a round comes to. The random value is the digest of the secrets one after
the other. -/
def outcome (r : Round) : RoundOutcome :=
  { round := r.id
    merkleRoot := r.merkleRoot.getD Word.zero
    combined := r.combined
    revealOrder := r.order
    secrets := r.secrets
    recoveries := r.records.filterMap (·.recovery)
    faulted := r.faulted
    randomValue := digest [] (r.secrets.map fun s => .word s.2) }

/-- Completes the round once every operator is resolved. -/
def finish (r : Round) : Round × Except RoundError RoundOutcome :=
  if !r.isComplete then (r, .error .incomplete)
  else
    let r := { r with phase := .completed }
    (r, .ok r.outcome)

end Round

end Beacon
