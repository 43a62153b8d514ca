import Beacon.Proofs.Digest.Unrolled
import Beacon.Proofs.Leader.Filing
import Beacon.Proofs.Leader.FittingOrder
import Beacon.Proofs.Leader.Registration
import Beacon.Proofs.Merkle.Levels

/-
  Records on file. Whatever happens to a leader, from its start on and with no save failing, the
  files of operators' records say what they should whenever no round is held (`Filed`), and that
  is the record itself but for where some operators stand (`Course.records_on_file`).

  An operator that timed out is committed by its file as long as it has not disclosed. It may
  disclose later, if the wait for first stages was closed and no order was fixed, and is then on
  file as it stands: that is the course of two operators in `Late`, on a directory where the
  order cannot be read, so that the driver ends (`Leader.drive_closing_unread`).
-/

namespace Beacon

/-! ## Courses -/

open Leader

theorem Work.preserves (w : Work) : Acting.Preserves (Filed none) w.act := by
  cases w with
  | acceptRecovery proof =>
    exact (preserves_acceptRecovery proof).bind fun _ => Acting.preserves_answer
  | callOff id operator => exact preserves_callOff id operator
  | fault id operator => exact preserves_fault id operator
  | conclude t => exact preserves_conclude t
  | commit id operator cvs sealed =>
    exact (preserves_commit id operator cvs sealed).bind fun _ => Acting.preserves_answer
  | disclose id operator cos =>
    exact (preserves_disclose id operator cos).bind fun _ => Acting.preserves_answer
  | register operator peer => exact preserves_register operator peer
  | openRound id eligible => exact preserves_openRound id eligible
  | prune keep => exact Acting.ensures_change fun l hl => hl.pruned keep
  | change network clock stopped => exact preserves_change fun _ => ⟨rfl, rfl⟩

namespace Course

variable {s : Course}

theorem run_append (s : Course) (earlier later : List Event) :
    s.run (earlier ++ later) = (s.run earlier).run later :=
  List.foldl_append

theorem filed_step (h : Filed none s.leader) (e : Event) : Filed none (s.step e).leader := by
  cases e with
  | drive key =>
    show Filed none (s.drive key).leader
    unfold Course.drive
    split
    · exact filed_drive h _
    · exact h
  | take id operator secret =>
    have htaken := Acting.ensures_iff.mp (preserves_acceptSecret id operator secret) s.leader h
    show Filed none (s.take id operator secret).leader
    unfold Course.take
    split
    · rename_i haccept
      rw [haccept] at htaken
      exact htaken
    · rename_i haccept
      rw [haccept] at htaken
      exact htaken
  | tell place =>
    show Filed none (s.tell place).leader
    unfold Course.tell
    split
    · exact filed_noteSecret h _ _ _
    · exact h
  | work w => exact Acting.ensures_iff.mp w.preserves s.leader h

theorem filed_run (h : Filed none s.leader) (events : List Event) :
    Filed none (s.run events).leader := by
  induction events generalizing s with
  | nil => exact h
  | cons e events ih => exact ih (filed_step h e)

theorem filed_of_start {settings : LeaderSettings} {signer : Signer} {disk : Disk}
    {network : Network} {clock : Nat} {l : Leader}
    (hstart : Leader.start settings signer disk network clock = .ok l) (hdisk : disk.Reliable)
    (events : List Event) : Filed none ((Course.mk l []).run events).leader := by
  obtain ⟨rfl, -, hregistry, -⟩ := Leader.start_eq_ok hstart
  have hnone (id : UInt64) (r : Round) : l.registry.find? id ≠ some r := by
    rw [hregistry]
    nofun
  refine filed_run ⟨hdisk, fun id r hr => ?_, fun id r hr => ?_⟩ events
  · exact absurd hr (hnone id r)
  · exact absurd hr (hnone id r)

end Course

namespace Leader

variable {l : Leader} {id : UInt64} {a : Address} {r r' : Round} {p : Participant} {disk : Disk}

/-! ## What is taken in -/

theorem kept_of_saved {α : Type} (hr : l.registry.find? id = some r) (hf : r.find? a = some p)
    (hsave : l.disk.saveParticipant id p = (disk, .ok ())) (ready : Round → Bool) (b : α) :
    (do
      keepRecord id a
      if ready (← round id) then Acting.change (poke id)
      return b) l =
        (if ready r then poke id (l.withDisk disk) else l.withDisk disk, .ok b) := by
  have hr' : (l.withDisk disk).registry.find? id = some r := hr
  rw [Acting.bind_of_ok (keepRecord_of_saved hr hf hsave), Acting.bind_of_ok (round_of_find? hr')]
  cases ready r <;> rfl

theorem commit_of_saved {cvs sealed : Word} {place : Nat} (hr : l.registry.find? id = some r)
    (h : r.acceptCommit a cvs sealed = (r', .ok place)) (hf : r'.find? a = some p)
    (hsave : l.disk.saveParticipant id p = (disk, .ok ())) :
    (commit id a cvs sealed l).1 = if r'.allCommitted then poke id ((l.withRound r').withDisk disk)
      else (l.withRound r').withDisk disk := by
  have hr' := find?_performed hr (.acceptCommit a cvs sealed)
  have hround := onRound_of_find? (f := (·.acceptCommit a cvs sealed)) hr
  rw [Round.perform, h] at hr'
  rw [h] at hround
  rw [commit, Acting.bind_of_ok hround]
  exact congrArg Prod.fst (kept_of_saved hr' hf hsave _ place)

theorem disclose_of_saved {cos : Word} (hr : l.registry.find? id = some r)
    (h : r.acceptCos a cos = (r', .ok true)) (hf : r'.find? a = some p)
    (hsave : l.disk.saveParticipant id p = (disk, .ok ())) :
    (disclose id a cos l).1 = if r'.allCosReceived then poke id ((l.withRound r').withDisk disk)
      else (l.withRound r').withDisk disk := by
  have hr' := find?_performed hr (.acceptCos a cos)
  have hround := onRound_of_find? (f := (·.acceptCos a cos)) hr
  rw [Round.perform, h] at hr'
  rw [h] at hround
  rw [disclose, Acting.bind_of_ok hround]
  exact congrArg Prod.fst (kept_of_saved hr' hf hsave _ true)

variable {d : Driver} {root : Word}

theorem step_closingCommits (hstage : d.stage = .closingCommits)
    (hr : l.registry.find? d.round = some r) (h : r.closeCommits = (r', .ok root)) :
    step d l = (l.withRound r', .ok (some (d.goTo (.announcing root r'.committed)))) := by
  have hr' : (l.withRound r').registry.find? d.round = some r' := by
    simpa only [Round.perform, Round.answer, h] using find?_performed hr .closeCommits
  have hround := onRound_of_find? (f := Round.closeCommits) hr
  rw [h] at hround
  rw [step, Acting.bind_of_ok (Acting.state_apply l), hstage]
  dsimp only
  rw [Acting.bind_of_ok hround, Acting.bind_of_ok (round_of_find? hr')]
  rfl

theorem step_announcing {as : List Address} {m : Message .commitClosed}
    (hstage : d.stage = .announcing root as)
    (hsigned : Message.signed (.commitClosed d.round root as ·) l.signer = .ok m) :
    step d l = (broadcast as m l,
      .ok (some (d.enter (.collectingCos root (l.after l.settings.cosWindow))))) := by
  have hgive : Acting.give NodeError.auth (Message.signed (.commitClosed d.round root as ·) l.signer)
      l = (l, .ok m) := by
    rw [hsigned]
    rfl
  rw [step, Acting.bind_of_ok (Acting.state_apply l), hstage]
  dsimp only
  rw [Acting.bind_of_ok hgive]
  rfl

/-- The wait for first stages ends at its deadline. -/
theorem step_expired {deadline : Nat} (hstage : d.stage = .collectingCos root deadline)
    (hpoked : d.poked = false) (hstopped : l.stopped = false) (hdeadline : deadline ≤ l.clock) :
    step d l = (l, .ok (some (d.goTo (.closingCos root)))) := by
  have hwait : waitUntil d (some deadline) Round.allCosReceived (.closingCos root) l =
      (l, .ok (d.goTo (.closingCos root))) := by
    rw [waitUntil, Acting.bind_of_ok (Acting.state_apply l)]
    simp only [hpoked, hstopped, Option.any_some, hdeadline, decide_true, if_true,
      Bool.false_eq_true, if_false]
    rfl
  rw [step, Acting.bind_of_ok (Acting.state_apply l), hstage]
  exact Acting.bind_of_ok hwait

end Leader

/-! ## A late first stage -/

namespace Late

open Leader
open Course (Event)

/-- A directory in which saves succeed, with an empty file in place of the order of the first
round. -/
structure Spoiled (d : Disk) : Prop where
  reliable : d.Reliable
  order : d.find? (FileKey.order 1).name = some (.file "")

theorem Spoiled.act {d : Disk} (h : Spoiled d) (s : Saving) (hs : s.key ≠ .order 1) :
    ∃ d', s.act d = (d', .ok ()) ∧ Spoiled d' := by
  obtain ⟨hdone, hreliable⟩ := h.reliable.act s
  have hfile : (RecordKey.order 1).file ≠ s.key.file := fun hfile =>
    hs (RecordKey.file_injective hfile.symm)
  have hothers := (Disk.save_spec d s.key.file s.key.format s.record).1 (.order 1) hfile
  refine ⟨(s.act d).1, Prod.ext rfl hdone, hreliable, ?_⟩
  rw [Saving.act_eq, hothers]
  exact h.order

theorem Spoiled.loadOrder {d : Disk} (h : Spoiled d) : ∃ e, d.loadOrder 1 = .error e := by
  rw [Disk.loadOrder, Disk.load_eq, h.order]
  exact ⟨_, rfl⟩

/-! ### Two operators -/

def punctual : Address := ⟨Octets.ofNat 20 1⟩

def tardy : Address := ⟨Octets.ofNat 20 2⟩

theorem punctual_ne : punctual ≠ tardy := by decide

/-- What both commit to: the second stage of a first stage of zeroes. -/
def cvs : Word := secondStage .zero

def root : Word := sha3Pair cvs cvs

def entry (a : Address) (i : Nat) (cos : Option Word) (standing : Standing) : Participant where
  operator := a
  commitIndex := i
  cvs
  sealed := .zero
  cos
  secret := none
  standing
  recovery := none

/-- The first round, before an order is fixed. -/
def round (phase : Phase) (root : Option Word) (records : List Participant) : Round where
  id := 1
  phase
  eligible := [punctual, tardy]
  records
  merkleRoot := root
  combined := none
  order := []
  cursor := 0

/-- Both have committed, and their first stages may be there. -/
def both (first second : Option Word) (standing : Standing) : List Participant :=
  [entry punctual 0 first .committed, entry tardy 1 second standing]

theorem mem_both {phase : Phase} {root first second : Option Word} {standing : Standing} :
    entry tardy 1 second standing ∈ (round phase root (both first second standing)).records :=
  List.mem_cons_of_mem _ (List.mem_singleton_self _)

theorem closeCommits_both : (round .collectingCommits none (both none none .committed)).closeCommits =
    (round .collectingCos (some root) (both none none .committed), .ok root) := by
  have htree : MerkleTree.ofWords [cvs, cvs] = .ok ⟨Merkle.levels [cvs, cvs]⟩ :=
    Merkle.ofWords_eq_ok.mpr ⟨nofun, rfl⟩
  have hroot : merkleRoot [cvs, cvs] = .ok root := by
    rw [merkleRoot, htree, Except.map, Merkle.root_of_lt (by exact Nat.one_lt_two)]
    exact congrArg _ (Merkle.root_singleton _)
  simp [Round.closeCommits, round, both, entry, hroot]

theorem cosOpens_zero : cosOpens cvs .zero = true := beq_self_eq_true (secondStage .zero)

theorem acceptCos_punctual :
    (round .collectingCos (some root) (both none none .committed)).acceptCos punctual .zero =
      (round .collectingCos (some root) (both (some .zero) none .committed), .ok true) := by
  simp [Round.acceptCos, round, both, entry, Round.find?, Round.modify, cosOpens_zero,
    punctual_ne.symm]

/-- The first stage is taken in although the wait for it is over. -/
theorem acceptCos_tardy :
    (round .collectingCos (some root) (both (some .zero) none .timedOut)).acceptCos tardy .zero =
      (round .collectingCos (some root) (both (some .zero) (some .zero) .timedOut), .ok true) := by
  simp [Round.acceptCos, round, both, entry, Round.find?, Round.modify, cosOpens_zero, punctual_ne]

/-! ### The notices of the leader -/

def settings : LeaderSettings where
  commitWindow := .ofSeconds 1
  cosWindow := .ofSeconds 1
  revealTimeout := .ofSeconds 1
  delay := ⟨5, 3⟩

theorem one_lt_order : 1 < Curve.order := by decide

def signer : Signer := ⟨1, Nat.one_pos, one_lt_order⟩

theorem cvs_eq : cvs = .ofNat 32
    18569430475105882587588266137607568536673111973893317399460219858819262702947 := by
  apply Octets.ext
  rw [cvs, secondStage, bytes_keccak256]
  decide +kernel

theorem root_eq : root = .ofNat 32
    14141200544028615464000130602120561336536190572501489200786239351948533245371 := by
  apply Octets.ext
  rw [root, cvs_eq, bytes_sha3Pair]
  decide +kernel

theorem opening_digest (sender : Address) :
    (Body.roundOpened 1 [punctual, tardy] sender).signingDigest = .ofNat 32
      38669779009630837062294903400115875677964455191622120079218059900582558908735 := by
  apply Octets.ext
  rw [Body.signingDigest, digest, bytes_keccak256]
  simp only [Body.segments]
  decide +kernel

theorem closing_digest (sender : Address) :
    (Body.commitClosed 1 root [punctual, tardy] sender).signingDigest = .ofNat 32
      105373994248965997265273678254962600113624724996161246315627129721550646114358 := by
  apply Octets.ext
  rw [root_eq, Body.signingDigest, digest, bytes_keccak256]
  simp only [Body.segments]
  decide +kernel

theorem signed_of_sign {kind : Kind} {make : Address → Body kind} {digest : Word}
    (hdigest : ∀ sender, (make sender).signingDigest = digest)
    (h : (signer.sign digest).isOk = true) : ∃ m, Message.signed make signer = .ok m := by
  rw [Message.signed, hdigest]
  cases hsign : signer.sign digest with
  | error e =>
    rw [hsign] at h
    cases h
  | ok signature => exact ⟨_, rfl⟩

theorem signed_opening :
    ∃ m, Message.signed (.roundOpened 1 [punctual, tardy] ·) signer = .ok m :=
  signed_of_sign opening_digest (by decide +kernel)

theorem signed_closing :
    ∃ m, Message.signed (.commitClosed 1 root [punctual, tardy] ·) signer = .ok m :=
  signed_of_sign closing_digest (by decide +kernel)

/-! ### The course -/

def disk : Disk := Disk.empty.put (FileKey.order 1).name (.file "")

theorem spoiled_disk : Spoiled disk where
  reliable :=
    have hempty : Disk.empty.Plain := fun _ => nofun
    Disk.reliable_of_plain (hempty.put _ _) nofun
  order := (Disk.find?_put _ _ _ _).trans (if_pos rfl)

def started : Leader where
  settings
  signer
  disk
  network := .empty
  registry := .empty
  book := []
  latest := 0
  started := 0
  drivers := []
  waiters := []
  recoveries := []
  outcomes := []
  stopped := false
  clock := 0

theorem start_eq : Leader.start settings signer disk .empty 0 = .ok started := rfl

/-- The leader once it has opened the round. -/
def leader (r : Round) (d : Disk) (drivers : List Driver) (clock : Nat) : Leader :=
  { started with disk := d, registry := ⟨[r]⟩, latest := 1, started := 1, drivers, clock }

def driver (stage : Stage) (poked : Bool) : Driver := ⟨0, 1, stage, true, poked⟩

theorem broadcast_leader {k : Kind} (as : List Address) (m : Message k) (r : Round) (d : Disk)
    (drivers : List Driver) (clock : Nat) :
    broadcast as m (leader r d drivers clock) = leader r d drivers clock := by
  induction as with
  | nil => rfl
  | cons a as ih => exact ih

/-- The events lead to the round and its drivers, on a directory that is still spoiled. -/
def Reaches (events : List Event) (r : Round) (drivers : List Driver) (clock : Nat) : Prop :=
  ∃ d, Spoiled d ∧ (Course.mk started []).run events = ⟨leader r d drivers clock, []⟩

variable {events : List Event} {r r' : Round} {drivers drivers' : List Driver} {clock clock' : Nat}

theorem Reaches.step {e : Event} (h : Reaches events r drivers clock)
    (hstep : ∀ d, Spoiled d → ∃ d', Spoiled d' ∧ (Course.mk (leader r d drivers clock) []).step e =
      ⟨leader r' d' drivers' clock', []⟩) : Reaches (events ++ [e]) r' drivers' clock' := by
  obtain ⟨d, hd, hrun⟩ := h
  obtain ⟨d', hd', hstep⟩ := hstep d hd
  refine ⟨d', hd', ?_⟩
  rw [Course.run_append, hrun]
  exact hstep

theorem Reaches.find? {phase : Phase} {root : Option Word} {ps : List Participant}
    (h : Reaches events (round phase root ps) drivers clock) :
    ((Course.mk started []).run events).leader.registry.find? 1 = some (round phase root ps) := by
  obtain ⟨d, -, hrun⟩ := h
  rw [hrun]
  rfl

theorem Reaches.quiet {e : Event} (h : Reaches events r drivers clock)
    (hstep : ∀ d, (Course.mk (leader r d drivers clock) []).step e =
      ⟨leader r' d drivers' clock', []⟩) : Reaches (events ++ [e]) r' drivers' clock' :=
  h.step fun d hd => ⟨d, hd, hstep d⟩

theorem Reaches.drive {stage : Stage} {poked : Bool} {next : Driver}
    (h : Reaches events r [driver stage poked] clock)
    (hstep : ∀ d, Leader.step (driver stage poked) (leader r d [driver stage poked] clock) =
      (leader r' d [driver stage poked] clock, .ok (some next))) :
    Reaches (events ++ [.drive 0]) r' [next] clock :=
  h.quiet fun d => congrArg (Course.mk · []) (drive_of_goes (hstep d))

/-- A record is changed and written. The driver is poked already, if there is one. -/
theorem Reaches.kept {w : Work} {phase : Phase} {root : Option Word} {ps ps' : List Participant}
    {p : Participant} {ready : Bool}
    (h : Reaches events (round phase root ps) drivers clock)
    (hpoked : ∀ d, poke 1 (leader (round phase root ps') d drivers clock) =
      leader (round phase root ps') d drivers clock)
    (hact : ∀ {l : Leader} {disk : Disk}, l.registry.find? 1 = some (round phase root ps) →
      l.disk.saveParticipant 1 p = (disk, .ok ()) → (w.act l).1 =
        if ready then poke 1 ((l.withRound (round phase root ps')).withDisk disk)
        else (l.withRound (round phase root ps')).withDisk disk) :
    Reaches (events ++ [.work w]) (round phase root ps') drivers clock := by
  refine h.step fun d hd => ?_
  obtain ⟨d', hsave, hd'⟩ := hd.act (.participant 1 p) nofun
  refine ⟨d', hd', ?_⟩
  refine congrArg (Course.mk · []) ((hact (l := leader _ d drivers clock) rfl hsave).trans ?_)
  split
  · exact hpoked d'
  · rfl

theorem Reaches.commit {stage : Stage} {ps ps' : List Participant} {a : Address} {p : Participant}
    {place : Nat}
    (h : Reaches events (round .collectingCommits none ps) [driver stage true] clock)
    (htaken : (round .collectingCommits none ps).acceptCommit a cvs .zero =
      (round .collectingCommits none ps', .ok place))
    (hf : (round .collectingCommits none ps').find? a = some p) :
    Reaches (events ++ [.work (.commit 1 a cvs .zero)]) (round .collectingCommits none ps')
      [driver stage true] clock :=
  h.kept (fun _ => rfl) fun hr hsave =>
    (Acting.fst_bind_pure _ _ _).trans (commit_of_saved hr htaken hf hsave)

theorem Reaches.disclose {ps ps' : List Participant} {a : Address} {p : Participant} {cos : Word}
    (h : Reaches events (round .collectingCos (some root) ps) drivers clock)
    (htaken : (round .collectingCos (some root) ps).acceptCos a cos =
      (round .collectingCos (some root) ps', .ok true))
    (hf : (round .collectingCos (some root) ps').find? a = some p)
    (hpoked : ∀ d, poke 1 (leader (round .collectingCos (some root) ps') d drivers clock) =
      leader (round .collectingCos (some root) ps') d drivers clock) :
    Reaches (events ++ [.work (.disclose 1 a cos)]) (round .collectingCos (some root) ps')
      drivers clock :=
  h.kept hpoked fun hr hsave =>
    (Acting.fst_bind_pure _ _ _).trans (disclose_of_saved hr htaken hf hsave)

def opening : List Event := [.work (.openRound 1 [punctual, tardy])]

theorem reaches_opening : Reaches opening (round .collectingCommits none [])
    [driver (.collectingCommits (started.after settings.commitWindow)) true] 0 := by
  obtain ⟨m, hsigned⟩ := signed_opening
  obtain ⟨d, hsave, hd⟩ := spoiled_disk.act (.latestRound 1) nofun
  have hgive : Acting.give NodeError.auth (Message.signed (.roundOpened 1 [punctual, tardy] ·)
      started.signer) started = (started, .ok m) := by
    rw [show started.signer = signer from rfl, hsigned]
    rfl
  have hcreate : Acting.within (·.registry) (fun (l : Leader) registry => { l with registry })
      (.ofOperation .round (·.create 1 [punctual, tardy])) started =
        ({ started with registry := ⟨[round .collectingCommits none []]⟩ },
          .ok (round .collectingCommits none [])) := rfl
  have hraise : raiseLatest 1 { started with registry := ⟨[round .collectingCommits none []]⟩ } =
      ({ started with
        registry := ⟨[round .collectingCommits none []]⟩, disk := d, latest := 1 }, .ok ()) := by
    rw [raiseLatest, Acting.bind_of_ok (Acting.state_apply _), if_pos (by decide)]
    have hdisk : onDisk (·.saveLatest 1)
        { started with registry := ⟨[round .collectingCommits none []]⟩ } =
          ({ started with registry := ⟨[round .collectingCommits none []]⟩, disk := d }, .ok ()) := by
      rw [onDisk_apply, show started.disk.saveLatest 1 = (d, .ok ()) from hsave]
      rfl
    rw [Acting.bind_of_ok hdisk]
    rfl
  refine ⟨d, hd, congrArg (Course.mk · []) ?_⟩
  show (openRound 1 [punctual, tardy] started).1 = _
  rw [openRound, Acting.bind_of_ok (Acting.state_apply _), Acting.bind_of_ok hgive,
    Acting.bind_of_ok hcreate, Acting.bind_of_ok hraise]
  rfl

def committing : List Event :=
  opening ++ [.work (.commit 1 punctual cvs .zero)] ++ [.work (.commit 1 tardy cvs .zero)]

theorem reaches_committing :
    Reaches committing (round .collectingCommits none (both none none .committed))
      [driver (.collectingCommits (started.after settings.commitWindow)) true] 0 := by
  have hfirst : Reaches (opening ++ [.work (.commit 1 punctual cvs .zero)])
      (round .collectingCommits none [entry punctual 0 none .committed])
      [driver (.collectingCommits (started.after settings.commitWindow)) true] 0 :=
    reaches_opening.commit rfl rfl
  exact hfirst.commit rfl rfl

def announcing : List Event := committing ++ [.drive 0] ++ [.drive 0] ++ [.drive 0]

theorem reaches_announcing :
    Reaches announcing (round .collectingCos (some root) (both none none .committed))
      [driver (.collectingCos root (started.after settings.cosWindow)) true] 0 := by
  obtain ⟨m, hsigned⟩ := signed_closing
  have hready : Reaches (committing ++ [.drive 0])
      (round .collectingCommits none (both none none .committed))
      [driver .closingCommits false] 0 := reaches_committing.drive fun _ => rfl
  have hclosed : Reaches (committing ++ [.drive 0] ++ [.drive 0])
      (round .collectingCos (some root) (both none none .committed))
      [driver (.announcing root [punctual, tardy]) false] 0 :=
    hready.drive fun _ => step_closingCommits rfl rfl closeCommits_both
  refine hclosed.drive fun d => ?_
  have hstep := step_announcing (d := driver (.announcing root [punctual, tardy]) false)
    (l := leader (round .collectingCos (some root) (both none none .committed)) d
      [driver (.announcing root [punctual, tardy]) false] 0) rfl hsigned
  rw [hstep, broadcast_leader]
  rfl

/-- One discloses, and the wait for the other ends. -/
def waiting : List Event :=
  announcing ++ [.work (.disclose 1 punctual .zero)] ++ [.drive 0] ++
    [.work (.change .empty 1000000000 false)] ++ [.drive 0] ++ [.drive 0]

theorem reaches_waiting :
    Reaches waiting (round .collectingCos (some root) (both (some .zero) none .timedOut)) []
      1000000000 := by
  have hdisclosed := reaches_announcing.disclose acceptCos_punctual rfl fun _ => rfl
  have hmissing : Reaches (announcing ++ [.work (.disclose 1 punctual .zero)] ++ [.drive 0])
      (round .collectingCos (some root) (both (some .zero) none .committed))
      [driver (.collectingCos root (started.after settings.cosWindow)) false] 0 :=
    hdisclosed.drive fun _ => rfl
  have hlater : Reaches (announcing ++ [.work (.disclose 1 punctual .zero)] ++ [.drive 0] ++
      [.work (.change .empty 1000000000 false)])
      (round .collectingCos (some root) (both (some .zero) none .committed))
      [driver (.collectingCos root (started.after settings.cosWindow)) false] 1000000000 :=
    hmissing.quiet fun _ => rfl
  have hdeadline : started.after settings.cosWindow ≤ 1000000000 := by decide
  have hexpired := hlater.drive fun _ => step_expired rfl rfl rfl hdeadline
  refine hexpired.step fun d hd => ?_
  obtain ⟨e, hload⟩ := hd.loadOrder
  refine ⟨d, hd, congrArg (Course.mk · []) ?_⟩
  have hdisclosed : (round .collectingCos (some root)
      (both (some .zero) none .committed)).disclosed ≠ [] := List.cons_ne_nil _ _
  have hends := drive_closing_unread (d := driver (.closingCos root) false)
    (l := leader (round .collectingCos (some root) (both (some .zero) none .committed)) d
      [driver (.closingCos root) false] 1000000000) rfl rfl rfl hdisclosed hload
  exact hends

theorem reaches_late : Reaches (waiting ++ [.work (.disclose 1 tardy .zero)])
    (round .collectingCos (some root) (both (some .zero) (some .zero) .timedOut)) [] 1000000000 :=
  reaches_waiting.disclose acceptCos_tardy rfl fun _ => rfl

end Late

namespace Course

/-- Where no save fails, each record of each round is on file at any moment when no round is held,
whatever happened since the leader was started. The file is the record but for where the operator
stands: one that is asked, or timed out without a first stage, committed by the file. -/
theorem records_on_file {settings : LeaderSettings} {signer : Signer} {disk : Disk}
    {network : Network} {clock : Nat} {l : Leader}
    (hstart : Leader.start settings signer disk network clock = .ok l) (hdisk : disk.Reliable)
    (events : List Event) :
    ∀ id r, ((Course.mk l []).run events).leader.registry.find? id = some r →
      ∀ p ∈ r.records, p.commitIndex < UInt64.size →
        ((Course.mk l []).run events).leader.disk.load (.participant id p.operator) .participant =
          .ok (some { p with standing := p.standingOnFile }) := by
  intro id r hr p hp hindex
  exact (filed_of_start hstart hdisk events).load hr hp hindex

/-- The wait for the first stage of an operator ends, and its file says that it committed. -/
theorem records_on_file_tardy :
    ∃ l r, Leader.start Late.settings Late.signer Late.disk .empty 0 = .ok l ∧
      Late.disk.Reliable ∧
      ((Course.mk l []).run Late.waiting).leader.registry.find? 1 = some r ∧
      Late.entry Late.tardy 1 none .timedOut ∈ r.records ∧ 1 < UInt64.size ∧
      ((Course.mk l []).run Late.waiting).leader.disk.load (.participant 1 Late.tardy)
        .participant = .ok (some (Late.entry Late.tardy 1 none .committed)) := by
  have hreliable := Late.spoiled_disk.reliable
  have hindex : 1 < UInt64.size := by decide
  have hload := records_on_file Late.start_eq hreliable Late.waiting 1 _
    Late.reaches_waiting.find? _ Late.mem_both hindex
  exact ⟨_, _, Late.start_eq, hreliable, Late.reaches_waiting.find?, Late.mem_both, hindex, hload⟩

/-- Not every operator that timed out committed by its file. One discloses its first stage after
its time was up, when the round is not driven any more since its order could not be read, and is
then on file as it stands. -/
theorem not_always_committed_on_file :
    ¬ ∀ (settings : LeaderSettings) (signer : Signer) (disk : Disk) (network : Network)
      (clock : Nat) (l : Leader), Leader.start settings signer disk network clock = .ok l →
      disk.Reliable → ∀ (events : List Event) (id : UInt64) (r : Round),
      ((Course.mk l []).run events).leader.registry.find? id = some r →
      ∀ p ∈ r.records, p.commitIndex < UInt64.size →
        ((Course.mk l []).run events).leader.disk.load (.participant id p.operator) .participant =
          .ok (some { p with
            standing := if p.standing = .revealRequested ∨ p.standing = .timedOut then .committed
              else p.standing }) := by
  intro hclaim
  have hreliable := Late.spoiled_disk.reliable
  have hindex : 1 < UInt64.size := by decide
  have hsaid := hclaim _ _ _ _ _ _ Late.start_eq hreliable _ 1 _ Late.reaches_late.find? _
    Late.mem_both hindex
  have hfile := (filed_of_start Late.start_eq hreliable _).load Late.reaches_late.find?
    Late.mem_both hindex
  have hequal := hfile.symm.trans hsaid
  cases hequal

end Course

end Beacon
