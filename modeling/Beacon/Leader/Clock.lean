import Beacon.Leader.Driver

/-
  A leader in virtual time. Whatever a driver or a recovery task can do without
  time passing is done at once; time then moves on to the next deadline. Solving a
  puzzle takes no time up to a delay given as `patience`, and beyond it all the
  time there is.
-/

namespace Beacon

def Driver.deadline? (d : Driver) : Option Nat :=
  match d.stage with
  | .collectingCommits deadline => some deadline
  | .collectingCos _ deadline => some deadline
  | .awaiting _ deadline => some deadline
  | _ => none

namespace Leader

/-- Whether a driver has something to do now. -/
def isBusy (l : Leader) (d : Driver) : Bool :=
  match d.stage with
  | .collectingCommits deadline => d.poked || l.stopped || deadline ≤ l.clock
  | .collectingCos _ deadline => d.poked || l.stopped || deadline ≤ l.clock
  | .awaiting operator deadline =>
    l.isAnswered d.round operator || l.stopped || deadline ≤ l.clock
  | .awaitingResolution => d.poked || l.stopped
  | _ => true

/-- Whether a recovery task ends now. -/
def isRipe (l : Leader) (patience : UInt64) (t : RecoveryTask) : Bool :=
  t.started && (t.cancelled || l.stopped || l.settings.delay.delay ≤ patience)

/-- One thing that can be done without time passing, if there is one. -/
def turn? (patience : UInt64) (l : Leader) : Option Leader :=
  match l.drivers.find? l.isBusy with
  | some d => some (drive d l)
  | none => (l.recoveries.find? (l.isRipe patience)).map fun t => (conclude t l).1

/-- More than the number of things that can be done in a row: every driver has a
few stages, and a few more for each operator. -/
def turnLimit (l : Leader) : Nat :=
  64 + 8 * l.recoveries.length +
    l.registry.rounds.foldl (fun n r => n + (64 + 16 * r.records.length)) 0

def settleWithin (patience : UInt64) : (turns : Nat) → Leader → Leader
  | 0, l => l
  | turns + 1, l =>
    match turn? patience l with
    | some l => settleWithin patience turns l
    | none => l

/-- Does all that can be done without time passing. -/
def settle (patience : UInt64) (l : Leader) : Leader := settleWithin patience l.turnLimit l

def nextDeadline? (l : Leader) : Option Nat := (l.drivers.filterMap Driver.deadline?).min?

/-- Moves the clock on to a moment, past at most so many deadlines. -/
def advanceWithin (patience : UInt64) (moment : Nat) : (deadlines : Nat) → Leader → Leader
  | 0, l => { l with clock := moment }
  | deadlines + 1, l =>
    match l.nextDeadline? with
    | some next =>
      if next ≤ moment then
        advanceWithin patience moment deadlines (settle patience { l with clock := max l.clock next })
      else { l with clock := moment }
    | none => { l with clock := moment }

/-- The leader so much later, after all that happened by then. -/
def pass (patience : UInt64) (d : Span) (l : Leader) : Leader :=
  advanceWithin patience (l.after d) l.turnLimit l

end Leader

end Beacon
