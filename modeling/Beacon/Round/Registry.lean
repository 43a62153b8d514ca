import Beacon.Round.Basic

/-
  The rounds a leader knows, by ascending number. Finished rounds are pruned, the
  newest of them kept. Pruning first lists what is to go and then drops it; rounds
  may move on between the two.
-/

namespace Beacon

/-- Rounds in ascending order of their numbers. -/
structure Registry where
  rounds : List Round
  deriving DecidableEq

namespace Registry

def empty : Registry := ⟨[]⟩

def find? (g : Registry) (id : UInt64) : Option Round := g.rounds.find? (·.id = id)

def require (g : Registry) (id : UInt64) : Except RoundError Round :=
  match g.find? id with
  | some r => .ok r
  | none => .error (.unknownRound id)

/-- A round put in its place among others. -/
def insertRound (r : Round) : List Round → List Round
  | [] => [r]
  | s :: rest => if r.id < s.id then r :: s :: rest else s :: insertRound r rest

/-- Starts a round of a new number; the answer is the round. -/
def create (g : Registry) (id : UInt64) (eligible : List Address) :
    Registry × Except RoundError Round :=
  if (g.find? id).isSome then (g, .error (.roundExists id))
  else
    let r := Round.start id eligible
    (⟨insertRound r g.rounds⟩, .ok r)

def replace (g : Registry) (r : Round) : Registry :=
  ⟨g.rounds.map fun s => if s.id = r.id then r else s⟩

/-- The highest number. -/
def latest? (g : Registry) : Option UInt64 := g.rounds.getLast?.map (·.id)

def size (g : Registry) : Nat := g.rounds.length

/-- The numbers of the finished rounds, in ascending order. -/
def finished (g : Registry) : List UInt64 :=
  (g.rounds.filter (·.phase.isFinished)).map (·.id)

/-- The numbers of the finished rounds that are not among the newest `keep`. -/
def excess (g : Registry) (keep : Nat) : List UInt64 :=
  g.finished.take (g.finished.length - keep)

def drop (g : Registry) (ids : List UInt64) : Registry :=
  ⟨g.rounds.filter (·.id ∉ ids)⟩

/-- Drops the finished rounds that are not among the newest `keep`. -/
def prune (g : Registry) (keep : Nat) : Registry := g.drop (g.excess keep)

end Registry

end Beacon
