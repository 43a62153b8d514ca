import Beacon.Network
import Beacon.Round.Basic
import Beacon.Store.Records

/-
  What nodes do. An action changes the state of a node and gives an answer or is
  refused; what it changed before a refusal stays changed.
-/

namespace Beacon

/-- Why an action of a node is refused. -/
inductive NodeError where
  | store (cause : StoreError)
  | round (cause : RoundError)
  | network (cause : NetworkError)
  | message (cause : MessageError)
  | auth (cause : AuthError)
  | commitment (cause : CommitmentError)
  | order (cause : OrderError)
  | recovery (cause : RecoveryError)
  | unexpectedKind (kind : Kind)
  | notLeader (sender : Address)
  | alreadyCommitted (round : UInt64)
  | noCommitment (round : UInt64)
  | noRoundLeft
  | stopped
  deriving DecidableEq

/-- The wording of a refusal, if this library words it: files and texts that are no
message have none. -/
def NodeError.message? : NodeError → Option String
  | .store _ => none
  | .round cause => some ("session: " ++ cause.message)
  | .network cause => some ("transport: " ++ cause.message)
  | .message cause => cause.message?.map ("protocol: " ++ ·)
  | .auth cause => some ("auth: " ++ cause.message)
  | .commitment cause => some ("commitment: " ++ cause.message)
  | .order cause => some ("order: " ++ cause.message)
  | .recovery cause => some ("recovery: " ++ cause.message)
  | .unexpectedKind kind => some ("unexpected protocol " ++ kind.path)
  | .notLeader sender => some ("message not from the leader: " ++ sender.text)
  | .alreadyCommitted id => some ("already committed to round " ++ Numeral.decimalText id.toNat)
  | .noCommitment id => some ("no commitment for round " ++ Numeral.decimalText id.toNat)
  | .noRoundLeft => some "no round number is left"
  | .stopped => some "shutting down"

def NodeError.code : NodeError → String
  | .store _ => "Storage"
  | .round _ => "Session"
  | .network _ => "Transport"
  | .message _ => "Protocol"
  | .auth _ => "Auth"
  | .commitment _ => "Commitment"
  | .order _ => "Order"
  | .recovery _ => "Recovery"
  | .unexpectedKind _ => "UnexpectedProtocol"
  | .notLeader _ => "NotLeader"
  | .alreadyCommitted _ => "AlreadyCommitted"
  | .noCommitment _ => "NoCommitment"
  | .noRoundLeft => "NoRoundLeft"
  | .stopped => "Shutdown"

/-- The short name of the cause of a refusal, if it has one. -/
def NodeError.causeCode? : NodeError → Option String
  | .store cause => some cause.code
  | .round cause => some cause.code
  | .network cause => some cause.code
  | .message cause => some cause.code
  | .auth cause => some cause.code
  | .commitment cause => some cause.code
  | .order cause => some cause.code
  | .recovery cause => some cause.code
  | _ => none

/-- An action on a state. -/
def Acting (σ α : Type) : Type := σ → σ × Except NodeError α

namespace Acting

variable {σ α β : Type}

/-- Answers without a change. -/
def answer (a : α) : Acting σ α := fun s => (s, .ok a)

def refuse (e : NodeError) : Acting σ α := fun s => (s, .error e)

/-- One action and, if it is not refused, the next. -/
def andThen (x : Acting σ α) (f : α → Acting σ β) : Acting σ β := fun s =>
  match x s with
  | (s, .ok a) => f a s
  | (s, .error e) => (s, .error e)

instance : Monad (Acting σ) where
  pure := answer
  bind := andThen

def state : Acting σ σ := fun s => (s, .ok s)

def change (f : σ → σ) : Acting σ Unit := fun s => (f s, .ok ())

/-- Gives what is there, or refuses for a cause. -/
def give {ε : Type} (cause : ε → NodeError) : Except ε α → Acting σ α
  | .ok a => answer a
  | .error e => refuse (cause e)

def within {π : Type} (part : σ → π) (put : σ → π → σ) (x : Acting π α) : Acting σ α := fun s =>
  let r := x (part s)
  (put s r.1, r.2)

/-- An operation with refusals of its own, as an action. -/
def ofOperation {ε : Type} (cause : ε → NodeError) (f : σ → σ × Except ε α) : Acting σ α := fun s =>
  let r := f s
  (r.1, r.2.mapError cause)

/-- An action whose refusal is an answer like any other. -/
def attempt (x : Acting σ α) : Acting σ (Except NodeError α) := fun s =>
  let r := x s
  (r.1, .ok r.2)

/-- Gives a message to a node that takes messages from a queue: a refusal of the
node stays with it, and a node that was stopped takes no more. -/
def queued (name : String) (stopped : σ → Bool) (x : Acting σ Unit) (s : σ) :
    σ × Except NetworkError Unit :=
  if stopped s then (s, .error (.closed name)) else ((x s).1, .ok ())

end Acting

end Beacon
