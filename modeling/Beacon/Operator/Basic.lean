import Beacon.Node.Acting
import Beacon.Settings.Roles

/-
  An operator. It commits to a fresh secret when a round opens, discloses the first
  stage when the commits are closed, and reveals the secret when it is asked. Every
  message it acts on must be signed by its leader. There is one commitment for each
  round: while one is in the making or on disk, no other is made.

  Making a commitment takes several steps, between which other things may happen:
  the round is claimed, the disk is searched for an earlier commitment, the secret
  is drawn and sealed, the commitment is kept, it is sent, and the claim is given
  up. `CommitTask.step` takes one of them, `Operator.commit` all.
-/

namespace Beacon

/-- An operator with its data directory and the network it sends on. -/
structure Operator where
  settings : OperatorSettings
  signer : Signer
  disk : Disk
  network : Network
  pending : List UInt64
  withholding : Bool
  stopped : Bool

/-- What a commitment is made from besides its round and operator: a random word,
if there is one, the time in seconds, and the moment that is kept with it. -/
structure Draw where
  nonce : Except String Word
  seconds : Int
  moment : Instant

/-- A commitment in the making, with what was found or made so far. -/
inductive CommitTask where
  | claiming
  | searching
  | drawing
  | keeping (made : SealedCommitment)
  | sending (made : SealedCommitment)
  | releasing (result : Except NodeError Word)
  | finished (result : Except NodeError Word)

namespace Operator

def start (settings : OperatorSettings) (signer : Signer) (disk : Disk) (network : Network) :
    Operator :=
  { settings, signer, disk, network, pending := [], withholding := false, stopped := false }

def address (o : Operator) : Address := o.signer.address

def withhold (on : Bool) (o : Operator) : Operator := { o with withholding := on }

/-- The operator without any sealing to come. -/
def stop (o : Operator) : Operator := { o with stopped := true }

/-! ## Actions -/

def onDisk {α : Type} (f : Disk → Disk × Except StoreError α) : Acting Operator α :=
  .within (·.disk) (fun o disk => { o with disk }) (.ofOperation .store f)

/-- Signs a message and sends it to the leader. -/
def send {k : Kind} (make : Address → Body k) : Acting Operator Unit := do
  let o ← Acting.state
  let m ← Acting.give .auth (Message.signed make o.signer)
  Acting.within (·.network) (fun o network => { o with network })
    (.ofOperation .network (·.sendMessage o.settings.leaderPeer m))

def register : Acting Operator Unit := do
  let o ← Acting.state
  send (.register · o.settings.advertised)

/-- The kept commitment for a round. -/
def kept (round : UInt64) : Acting Operator Commitment := do
  let o ← Acting.state
  match ← Acting.give .store (o.disk.loadCommitment round) with
  | some made => return made.commitment
  | none => Acting.refuse (.noCommitment round)

/-- Sends the first stage of the kept commitment. -/
def disclose (round : UInt64) : Acting Operator Unit := do
  let c ← kept round
  send (.cos round · c.cos)

/-- Sends the secret of the kept commitment, unless reveals are withheld. -/
def reveal (round : UInt64) : Acting Operator Unit := do
  if (← Acting.state).withholding then return
  let c ← kept round
  send (.secretValue round · c.secret)

/-! ## Commitments -/

def drawSealed (o : Operator) (round : UInt64) (draw : Draw) : Except NodeError SealedCommitment := do
  let nonce ← draw.nonce.mapError fun reason => .commitment (.noRandomness reason)
  let commitment := Commitment.draw round o.address draw.seconds nonce
  let shut ← (Puzzle.sealSecret o.settings.delay commitment (.fixed o.stopped)).mapError .recovery
  return { commitment, sealed := shut, createdAt := draw.moment }

end Operator

namespace CommitTask

/-- The next task after an action of the operator: `next` if it succeeds, and the
release of the claim if not. -/
def after {α : Type} (next : α → CommitTask) (x : Acting Operator α) (o : Operator) :
    Operator × CommitTask :=
  match x o with
  | (o, .ok a) => (o, next a)
  | (o, .error e) => (o, .releasing (.error e))

/-- Takes one step of making a commitment for a round. -/
def step (round : UInt64) (draw : Draw) (o : Operator) : CommitTask → Operator × CommitTask
  | .claiming =>
    if round ∈ o.pending then (o, .finished (.error (.alreadyCommitted round)))
    else ({ o with pending := round :: o.pending }, .searching)
  | .searching =>
    match o.disk.loadCommitment round with
    | .error e => (o, .releasing (.error (.store e)))
    | .ok (some _) => (o, .releasing (.error (.alreadyCommitted round)))
    | .ok none => (o, .drawing)
  | .drawing =>
    match o.drawSealed round draw with
    | .error e => (o, .releasing (.error e))
    | .ok made => (o, .keeping made)
  | .keeping made => after (fun _ => .sending made) (Operator.onDisk (·.saveCommitment made)) o
  | .sending made =>
    after (fun _ => .releasing (.ok made.commitment.cvs))
      (Operator.send (.commit round · made.commitment.cvs made.sealed)) o
  | .releasing result => ({ o with pending := o.pending.erase round }, .finished result)
  | .finished result => (o, .finished result)

def result? : CommitTask → Option (Except NodeError Word)
  | .finished result => some result
  | _ => none

def left : CommitTask → Nat
  | .claiming => 6
  | .searching => 5
  | .drawing => 4
  | .keeping _ => 3
  | .sending _ => 2
  | .releasing _ => 1
  | .finished _ => 0

theorem left_after {α : Type} {next : α → CommitTask} {x : Acting Operator α} {o : Operator}
    {n : Nat} (hn : ∀ a, (next a).left < n) (h : 1 < n) : (after next x o).2.left < n := by
  unfold after
  split
  · exact hn _
  · exact h

theorem left_step {round : UInt64} {draw : Draw} {o : Operator} :
    (t : CommitTask) → t.result? = none → (step round draw o t).2.left < t.left
  | .claiming, _ => by simp only [step]; split <;> simp [left]
  | .searching, _ => by simp only [step]; split <;> simp [left]
  | .drawing, _ => by simp only [step]; split <;> simp [left]
  | .keeping _, _ => by simp only [step]; exact left_after (by simp [left]) (by simp [left])
  | .sending _, _ => by simp only [step]; exact left_after (by simp [left]) (by simp [left])
  | .releasing _, _ => by simp [step, left]
  | .finished _, h => by simp [result?] at h

def finish (round : UInt64) (draw : Draw) (o : Operator) (t : CommitTask) :
    Operator × Except NodeError Word :=
  match _h : t.result? with
  | some result => (o, result)
  | none =>
    let next := step round draw o t
    finish round draw next.1 next.2
termination_by t.left
decreasing_by exact left_step t _h

end CommitTask

namespace Operator

/-- Commits to a fresh secret for a round and sends the commit; the answer is the
second stage. -/
def commit (round : UInt64) (draw : Draw) : Acting Operator Word := fun o =>
  CommitTask.finish round draw o .claiming

/-! ## Messages from the leader -/

/-- The message of a kind that a payload writes, if the leader signed it. -/
def leaderMessage (o : Operator) (k : Kind) (payload : Payload) : Except NodeError (Body k) := do
  let m ← (payload.decodeSigned k).mapError .message
  if m.body.sender = o.settings.leaderAddress then return m.body
  else throw (.notLeader m.body.sender)

/-- Acts on a message. Openings of rounds that the operator is not eligible for and
closings of commits without it are passed over. -/
def receive (kind : Kind) (payload : Payload) (draw : Draw) : Acting Operator Unit := do
  let o ← Acting.state
  match kind with
  | .roundOpened =>
    match ← Acting.give id (o.leaderMessage .roundOpened payload) with
    | .roundOpened round eligible _ =>
      if o.address ∈ eligible then
        let _ ← commit round draw
  | .commitClosed =>
    match ← Acting.give id (o.leaderMessage .commitClosed payload) with
    | .commitClosed round _ committed _ => if o.address ∈ committed then disclose round
  | .requestSecret =>
    match ← Acting.give id (o.leaderMessage .requestSecret payload) with
    | .requestSecret round _ => reveal round
  | other => Acting.refuse (.unexpectedKind other)

end Operator

end Beacon
