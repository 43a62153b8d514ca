import Beacon.Node.Acting
import Beacon.Round.Registry
import Beacon.Settings.Roles

/-
  A leader. It keeps the rounds, the book of registered operators, and the highest
  number of a round. Each open round has a driver, which owns every deadline of the
  round and is poked when the round has changed; each secret that is recovered has
  a task.

  Drivers have keys of their own. A number that was pruned can be opened again while
  the driver of the earlier round is still there, at its last step.

  Handlers, drivers and tasks work side by side. What one of them does while it
  holds a round, the book or the disk is one action here, and between two actions
  of one of them those of all others may come.
-/

namespace Beacon

/-- Where the driver of a round stands. Deadlines are moments of the leader's
clock. -/
inductive Stage where
  | collectingCommits (deadline : Nat)
  | closingCommits
  | announcing (root : Word) (committed : List Address)
  | collectingCos (root : Word) (deadline : Nat)
  | closingCos (root : Word)
  | launching (puzzles : List Puzzle)
  | choosing
  | calling (operator : Address)
  | asking (operator : Address)
  | awaiting (operator : Address) (deadline : Nat)
  | givingUp (operator : Address)
  | awaitingResolution
  | finishing
  | pruning
  deriving DecidableEq

/-- The driver of a round, and whether it was told to look at the round again. It
`hears` of changes if it was started last of those of its number, until one of these
ends. -/
structure Driver where
  key : Nat
  round : UInt64
  stage : Stage
  hears : Bool
  poked : Bool
  deriving DecidableEq

/-- An outstanding request for a secret, and whether it was answered. -/
structure Waiter where
  round : UInt64
  operator : Address
  answered : Bool
  deriving DecidableEq

/-- A recovery that was begun, whether its puzzle is being solved, and whether it was
called off. -/
structure RecoveryTask where
  puzzle : Puzzle
  started : Bool
  cancelled : Bool
  deriving DecidableEq

/-- A leader with its data directory and the network it sends on. The clock counts
nanoseconds, `started` counts the drivers so far, and `outcomes` are those of the
completed rounds, latest last. -/
structure Leader where
  settings : LeaderSettings
  signer : Signer
  disk : Disk
  network : Network
  registry : Registry
  book : AddressBook
  latest : UInt64
  started : Nat
  drivers : List Driver
  waiters : List Waiter
  recoveries : List RecoveryTask
  outcomes : List RoundOutcome
  stopped : Bool
  clock : Nat

namespace RecoveryTask

/-- Whether a recovery is that of an operator in a round. -/
def isOf (t : RecoveryTask) (round : UInt64) (operator : Address) : Bool :=
  t.puzzle.round = round && t.puzzle.operator = operator

end RecoveryTask

namespace Leader

/-- A leader that has just been started on a data directory. -/
def start (settings : LeaderSettings) (signer : Signer) (disk : Disk) (network : Network)
    (clock : Nat) : Except NodeError Leader := do
  let book ← disk.loadBook.mapError .store
  let latest ← disk.loadLatest.mapError .store
  return {
    settings, signer, disk, network
    registry := .empty
    book
    latest := latest.getD 0
    started := 0
    drivers := [], waiters := [], recoveries := [], outcomes := []
    stopped := false
    clock }

def address (l : Leader) : Address := l.signer.address

/-- The leader with its drivers and recoveries called off. -/
def stop (l : Leader) : Leader := { l with stopped := true }

def phaseOf (l : Leader) (round : UInt64) : Option Phase := (l.registry.find? round).map (·.phase)

/-- The highest number of a round so far, or zero. -/
def lastRoundId (l : Leader) : UInt64 := max l.latest (l.registry.latest?.getD 0)

/-- The number of the next round, one above that of every round so far; there is
none above `2 ^ 64 - 1`. -/
def nextRoundId? (l : Leader) : Option UInt64 :=
  if l.lastRoundId.toNat + 1 < UInt64.size then some (l.lastRoundId + 1) else none

/-! ## Parts of the state -/

def onDisk {α : Type} (f : Disk → Disk × Except StoreError α) : Acting Leader α :=
  .within (·.disk) (fun l disk => { l with disk }) (.ofOperation .store f)

def round (id : UInt64) : Acting Leader Round := do
  let l ← Acting.state
  Acting.give .round (l.registry.require id)

def onRound {α : Type} (id : UInt64) (f : Round → Round × Except RoundError α) : Acting Leader α := do
  let r ← round id
  let (r, result) := f r
  Acting.change fun l => { l with registry := l.registry.replace r }
  Acting.give .round result

/-- Keeps the record of an operator in a round, if there is one. -/
def keepRecord (id : UInt64) (operator : Address) : Acting Leader Unit := do
  let r ← round id
  match r.find? operator with
  | some p => onDisk (·.saveParticipant id p)
  | none => return

/-- The leader with the driver of a round told to look at it again. -/
def poke (id : UInt64) (l : Leader) : Leader :=
  { l with
    drivers := l.drivers.map fun d =>
      if d.round = id ∧ d.hears then { d with poked := true } else d }

/-- The leader with a request answered, if it is outstanding. -/
def answerWaiter (id : UInt64) (operator : Address) (l : Leader) : Leader :=
  { l with
    waiters := l.waiters.map fun w =>
      if w.round = id ∧ w.operator = operator then { w with answered := true } else w }

def dropWaiter (id : UInt64) (operator : Address) (l : Leader) : Leader :=
  { l with waiters := l.waiters.filter fun w => ¬(w.round = id ∧ w.operator = operator) }

def cancelRecovery (id : UInt64) (operator : Address) (l : Leader) : Leader :=
  { l with
    recoveries := l.recoveries.map fun t => if t.isOf id operator then { t with cancelled := true } else t }

/-- The leader after sending a message to every listed operator with a known peer;
what does not arrive is lost. -/
def broadcast {k : Kind} (operators : List Address) (m : Message k) (l : Leader) : Leader :=
  { l with
    network := operators.foldl (fun n a =>
      match l.book.peer? a with
      | some peer => (n.sendMessage peer m).1
      | none => n) l.network }

end Leader

end Beacon
