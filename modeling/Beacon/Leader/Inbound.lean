import Beacon.Leader.Basic

/-
  What a leader is told: registrations, commits, first stages and secrets, each
  signed by the operator it names, and recoveries from anyone. A change of a round
  is kept on disk before the round is released.
-/

namespace Beacon.Leader

/-! ## Registrations -/

/-- Enters an operator into the book; the answer is the new book, or nothing if it
already says so. -/
def enroll (operator : Address) (peer : String) (l : Leader) : Leader × Option AddressBook :=
  if l.book.peer? operator = some peer then (l, none)
  else
    let book := l.book.insert operator peer
    ({ l with book }, some book)

/-- Keeps a book on disk, as it was when it was changed. -/
def keepBook (book : AddressBook) : Acting Leader Unit := onDisk (·.saveBook book)

/-- Takes in a registration: first the book, then the disk. -/
def register (operator : Address) (peer : String) : Acting Leader Unit := fun l =>
  match enroll operator peer l with
  | (l, none) => (l, .ok ())
  | (l, some book) => keepBook book l

/-! ## Commits and first stages -/

/-- Takes in a commit; the answer is its place. -/
def commit (id : UInt64) (operator : Address) (cvs sealed : Word) : Acting Leader Nat := do
  let place ← onRound id (·.acceptCommit operator cvs sealed)
  keepRecord id operator
  if (← round id).allCommitted then Acting.change (poke id)
  return place

/-- Takes in a first stage; the answer is `false` for a repetition. -/
def disclose (id : UInt64) (operator : Address) (cos : Word) : Acting Leader Bool := do
  if !(← onRound id (·.acceptCos operator cos)) then return false
  keepRecord id operator
  if (← round id).allCosReceived then Acting.change (poke id)
  return true

/-! ## Secrets -/

/-- Takes a secret into its round; the answer is where the operator stood. -/
def acceptSecret (id : UInt64) (operator : Address) (secret : Word) : Acting Leader Standing := do
  let before ← onRound id (·.acceptReveal operator secret)
  keepRecord id operator
  return before

/-- Tells the driver of a secret that was taken in: a request is answered, and a
recovery of a late secret called off. -/
def noteSecret (id : UInt64) (operator : Address) (before : Standing) (l : Leader) : Leader :=
  poke id (if before = .revealRequested then answerWaiter id operator l else cancelRecovery id operator l)

def reveal (id : UInt64) (operator : Address) (secret : Word) : Acting Leader Unit := do
  let before ← acceptSecret id operator secret
  Acting.change (noteSecret id operator before)

/-! ## Recoveries -/

/-- Takes a recovery into its round; the answer is where the operator stands. -/
def acceptRecovery (proof : Recovery) : Acting Leader Standing := do
  let l ← Acting.state
  let now ← onRound proof.round (·.applyRecovery l.settings.delay proof)
  keepRecord proof.round proof.operator
  return now

/-- Takes in a recovery from anyone and calls off that of the leader. -/
def submitRecovery (proof : Recovery) : Acting Leader Standing := do
  let now ← acceptRecovery proof
  Acting.change fun l => poke proof.round (cancelRecovery proof.round proof.operator l)
  return now

/-- Marks an operator faulted whose seal did not open. -/
def fault (id : UInt64) (operator : Address) : Acting Leader Unit := do
  onRound id (·.markFaulted operator)
  keepRecord id operator
  Acting.change (poke id)

/-! ## Messages -/

/-- The body of a message of a kind, if the operator it names signed it. -/
def signedBody (k : Kind) (payload : Payload) : Acting Leader (Body k) := do
  let m ← Acting.give .message (payload.decodeSigned k)
  return m.body

def receive (kind : Kind) (payload : Payload) : Acting Leader Unit := do
  match kind with
  | .register =>
    match ← signedBody .register payload with
    | .register operator peer => register operator peer
  | .commit =>
    match ← signedBody .commit payload with
    | .commit id operator cvs sealed =>
      let _ ← commit id operator cvs sealed
  | .cos =>
    match ← signedBody .cos payload with
    | .cos id operator cos =>
      let _ ← disclose id operator cos
  | .secretValue =>
    match ← signedBody .secretValue payload with
    | .secretValue id operator secret => reveal id operator secret
  | other => Acting.refuse (.unexpectedKind other)

end Beacon.Leader
