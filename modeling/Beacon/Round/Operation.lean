import Beacon.Round.Basic

/-
  Runs of a round. Everything that can be done to a round is one `Operation`, and
  what can be answered one `Reply`; `perform` does an operation, and a run is a
  list of them.
-/

namespace Beacon.Round

inductive Operation where
  | acceptCommit (operator : Address) (cvs sealed : Word)
  | closeCommits
  | acceptCos (operator : Address) (cos : Word)
  | closeCos
  | installOrder (combined : Option Word) (order : List Address)
  | beginRevealing
  | nextToRequest
  | acceptReveal (operator : Address) (secret : Word)
  | markTimedOut (operator : Address)
  | beginRecovery (operator : Address)
  | applyRecovery (params : DelayParams) (proof : Recovery)
  | markFaulted (operator : Address)
  | finish

inductive Reply where
  | place (index : Nat)
  | root (value : Word)
  | accepted (changed : Bool)
  | missing (operators : List Address)
  | done
  | next (operator : Option Address)
  | stands (standing : Standing)
  | puzzle (puzzle : Puzzle)
  | outcome (outcome : RoundOutcome)
  deriving DecidableEq

/-- The answer of an operation as a reply. -/
def answer {α : Type} (reply : α → Reply) (result : Round × Except RoundError α) :
    Round × Except RoundError Reply :=
  (result.1, result.2.map reply)

def perform (r : Round) : Operation → Round × Except RoundError Reply
  | .acceptCommit operator cvs sealed => answer .place (r.acceptCommit operator cvs sealed)
  | .closeCommits => answer .root r.closeCommits
  | .acceptCos operator cos => answer .accepted (r.acceptCos operator cos)
  | .closeCos => answer .missing r.closeCos
  | .installOrder combined order => answer (fun _ => .done) (r.installOrder combined order)
  | .beginRevealing => answer (fun _ => .done) r.beginRevealing
  | .nextToRequest => (r.nextToRequest.1, .ok (.next r.nextToRequest.2))
  | .acceptReveal operator secret => answer .stands (r.acceptReveal operator secret)
  | .markTimedOut operator => answer .accepted (r.markTimedOut operator)
  | .beginRecovery operator => answer .puzzle (r.beginRecovery operator)
  | .applyRecovery params proof => answer .stands (r.applyRecovery params proof)
  | .markFaulted operator => answer (fun _ => .done) (r.markFaulted operator)
  | .finish => answer .outcome r.finish

/-- The round after a list of operations, answers aside. -/
def run (r : Round) (ops : List Operation) : Round :=
  ops.foldl (fun r op => (r.perform op).1) r

end Beacon.Round
