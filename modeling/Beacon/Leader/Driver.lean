import Beacon.Leader.Inbound
import Beacon.Leader.Order

/-
  The course of a round. A driver waits for the commits, closes them and announces
  the root, waits for the first stages, closes these and fixes the order, asks one
  operator after the other for its secret, waits until every operator is resolved,
  and finishes the round. A wait ends early when everything awaited is there. An
  operator that does not answer in time, or cannot be reached, is handed to a
  recovery task while the driver goes on with the next.

  A driver that is refused something, or is stopped while it waits, ends and leaves
  its round as it is.
-/

namespace Beacon

/-- How many finished rounds can still be looked up. -/
def Registry.keptRounds : Nat := 64

namespace Driver

/-- The driver at a stage where it first looks at the round. -/
def enter (d : Driver) (stage : Stage) : Driver := { d with stage, poked := true }

def goTo (d : Driver) (stage : Stage) : Driver := { d with stage }

/-- The drivers, none of which hears of changes of a round any more. -/
def hush (id : UInt64) (drivers : List Driver) : List Driver :=
  drivers.map fun d => if d.round = id then { d with hears := false } else d

end Driver

namespace Leader

/-! ## Opening -/

/-- The moment so long from now. -/
def after (l : Leader) (d : Span) : Nat := l.clock + d.nanoseconds

/-- Raises the highest number of a round, on disk first. -/
def raiseLatest (id : UInt64) : Acting Leader Unit := do
  if (← Acting.state).latest < id then
    onDisk (·.saveLatest id)
    Acting.change fun l => { l with latest := id }

def startDriver (id : UInt64) (l : Leader) : Leader :=
  let d : Driver :=
    { key := l.started
      round := id
      stage := .collectingCommits (l.after l.settings.commitWindow)
      hears := true
      poked := true }
  { l with started := l.started + 1, drivers := Driver.hush id l.drivers ++ [d] }

/-- Opens a round, starts its driver and tells the operators. -/
def openRound (id : UInt64) (eligible : List Address) : Acting Leader Unit := do
  let l ← Acting.state
  let notice ← Acting.give .auth (Message.signed (.roundOpened id eligible ·) l.signer)
  let _ ← Acting.within (·.registry) (fun l registry => { l with registry })
    (.ofOperation .round (·.create id eligible))
  raiseLatest id
  Acting.change (startDriver id)
  Acting.change (broadcast eligible notice)

/-- Opens the next round for all registered operators; the answer is its number. -/
def openNext : Acting Leader UInt64 := do
  let l ← Acting.state
  match l.nextRoundId? with
  | none => Acting.refuse .noRoundLeft
  | some id =>
    openRound id l.book.operators
    return id

/-! ## Recovery tasks -/

/-- Begins the recovery of an operator that timed out; the answer is its puzzle. -/
def beginRecovery (id : UInt64) (operator : Address) : Acting Leader Puzzle := do
  let puzzle ← onRound id (·.beginRecovery operator)
  keepRecord id operator
  Acting.change fun l =>
    { l with recoveries := l.recoveries ++ [{ puzzle, started := false, cancelled := false }] }
  return puzzle

def launch (l : Leader) (puzzle : Puzzle) : Leader :=
  { l with
    recoveries := l.recoveries.map fun t => if t.puzzle = puzzle then { t with started := true } else t }

/-- Ends a recovery task: its puzzle is solved, unless the task was called off, and
the result taken in. -/
def conclude (t : RecoveryTask) : Acting Leader Unit := do
  Acting.change fun l => { l with recoveries := l.recoveries.filter (· ≠ t) }
  let l ← Acting.state
  match t.puzzle.solve l.settings.delay (.fixed (t.cancelled || l.stopped)) with
  | .ok proof => let _ ← submitRecovery proof
  | .error e => if e.isFault then fault t.puzzle.round t.puzzle.operator

/-! ## Steps of a driver -/

/-- Looks at the round of a driver that was poked, and goes on if it is ready; else
goes on at the deadline. -/
def waitUntil (d : Driver) (deadline : Option Nat) (ready : Round → Bool) (next : Stage) :
    Acting Leader Driver := do
  let l ← Acting.state
  if d.poked then
    let d := { d with poked := false }
    return if ready (← round d.round) then d.goTo next else d
  else if l.stopped then Acting.refuse .stopped
  else return if deadline.any (· ≤ l.clock) then d.goTo next else d

/-- Closes the first stages: fixes the order of reveals, starts the reveals and
begins the recovery of every operator without a first stage. The answer is their
puzzles. -/
def closeCos (id : UInt64) (root : Word) : Acting Leader (List Puzzle) := do
  let missing ← onRound id (·.closeCos)
  let disclosed := (← round id).disclosed
  if disclosed = [] then onRound id (·.installOrder none [])
  else
    let o ← Acting.within (·.disk) (fun l disk => { l with disk })
      (OrderRecord.keptOrNew id root disclosed)
    onRound id (·.installOrder (some o.combined) o.operators)
  onRound id Round.beginRevealing
  missing.mapM (beginRecovery id)

/-- Asks an operator for its secret; the answer is whether the request arrived. -/
def ask (id : UInt64) (operator : Address) : Acting Leader Bool := do
  let l ← Acting.state
  let request ← Acting.give .auth (Message.signed (.requestSecret id ·) l.signer)
  match l.book.peer? operator with
  | none => return false
  | some peer =>
    let sent ← Acting.attempt (.within (·.network) (fun l network => { l with network })
      (.ofOperation .network (·.sendMessage peer request)))
    return sent.isOk

def isAnswered (l : Leader) (id : UInt64) (operator : Address) : Bool :=
  l.waiters.any fun w => w.round = id && w.operator = operator && w.answered

/-- Takes one step of a driver; no driver is left after the last one. -/
def step (d : Driver) : Acting Leader (Option Driver) := do
  let l ← Acting.state
  match d.stage with
  | .collectingCommits deadline => waitUntil d (some deadline) Round.allCommitted .closingCommits
  | .closingCommits =>
    let root ← onRound d.round Round.closeCommits
    return d.goTo (.announcing root (← round d.round).committed)
  | .announcing root committed =>
    let notice ← Acting.give .auth (Message.signed (.commitClosed d.round root committed ·) l.signer)
    Acting.change (broadcast committed notice)
    return d.enter (.collectingCos root (l.after l.settings.cosWindow))
  | .collectingCos root deadline =>
    waitUntil d (some deadline) Round.allCosReceived (.closingCos root)
  | .closingCos root => return d.goTo (.launching (← closeCos d.round root))
  | .launching puzzles =>
    Acting.change fun l => puzzles.foldl launch l
    return d.goTo .choosing
  | .choosing =>
    match ← onRound d.round (fun r => (r.nextToRequest.1, .ok r.nextToRequest.2)) with
    | some operator => return d.goTo (.calling operator)
    | none => return d.enter .awaitingResolution
  | .calling operator =>
    Acting.change fun l =>
      { l with waiters := ⟨d.round, operator, false⟩ :: (l.dropWaiter d.round operator).waiters }
    return d.goTo (.asking operator)
  | .asking operator =>
    if ← ask d.round operator then
      return d.goTo (.awaiting operator (l.after l.settings.revealTimeout))
    else return d.goTo (.givingUp operator)
  | .awaiting operator deadline =>
    if l.isAnswered d.round operator then
      Acting.change (dropWaiter d.round operator)
      return d.goTo .choosing
    else if l.stopped then Acting.refuse .stopped
    else if deadline ≤ l.clock then return d.goTo (.givingUp operator)
    else return d
  | .givingUp operator =>
    Acting.change (dropWaiter d.round operator)
    if ← onRound d.round (·.markTimedOut operator) then
      return d.goTo (.launching [← beginRecovery d.round operator])
    else return d.goTo .choosing
  | .awaitingResolution => waitUntil d none Round.isComplete .finishing
  | .finishing =>
    let outcome ← onRound d.round Round.finish
    Acting.change fun l => { l with outcomes := l.outcomes ++ [outcome] }
    return d.goTo .pruning
  | .pruning =>
    Acting.change fun l => { l with registry := l.registry.prune Registry.keptRounds }
    return none

/-- The leader after one step of a driver. When a driver ends, others of its number
hear of no more changes. -/
def drive (d : Driver) (l : Leader) : Leader :=
  match step d l with
  | (l, .ok (some next)) =>
    { l with drivers := l.drivers.map fun e => if e.key = d.key then next else e }
  | (l, _) => { l with drivers := Driver.hush d.round (l.drivers.filter (·.key ≠ d.key)) }

end Leader

end Beacon
