import Beacon.Leader.Driver
import Beacon.Proofs.Leader.Frame
import Beacon.Proofs.Store.Holdings

/-
  Work on rounds. What handlers, drivers and recovery tasks do to rounds that are open is put
  together from few things: an operation on a round, a record saved, a driver woken, a list of
  requests, recoveries or outcomes replaced, rounds pruned, a message sent. A frame that bears
  with each of these bears with all the work (`Bears`), done or refused.

  Only a driver searches for the next operator to ask, at one stage. So a frame need not bear
  with that search in every round; what it says of the other rounds is then shown for all the
  work but one step (`Bears.step`).

  A frame need not bear with requests being answered either. So secrets are followed here until
  they are taken in (`Bears.acceptSecret`), and their drivers are told of them elsewhere.
-/

namespace Beacon.OrderRecord

/-! ## The order of a round -/

variable {id : UInt64} {root : Word} {disclosed : List (Address × Word)} {d : Disk}
  {o : OrderRecord}

/-- A kept order that fits is the answer, and nothing is kept anew. -/
theorem keptOrNew_of_fits (hload : d.loadOrder id = .ok (some o))
    (hfits : o.fits root (RevealOrder.combine (disclosed.map (·.2))) disclosed = true) :
    keptOrNew id root disclosed d = (d, .ok o) := by
  rw [keptOrNew, Acting.bind_of_ok (Acting.state_apply d), hload,
    Acting.bind_of_ok (Acting.give_ok _ _ d)]
  dsimp only
  rw [if_pos hfits]
  rfl

theorem keptOrNew_of_stale {found : Option OrderRecord} (hload : d.loadOrder id = .ok found)
    (hstale : ∀ o ∈ found,
      ¬o.fits root (RevealOrder.combine (disclosed.map (·.2))) disclosed = true) :
    keptOrNew id root disclosed d = keptOrNew.renew id root disclosed d := by
  rw [keptOrNew, Acting.bind_of_ok (Acting.state_apply d), hload,
    Acting.bind_of_ok (Acting.give_ok _ found d)]
  cases found with
  | none => rfl
  | some o =>
    dsimp only
    rw [if_neg (hstale o rfl)]

theorem renew_of_determine (h : determine id root disclosed = .ok o) :
    keptOrNew.renew id root disclosed d =
      ((d.saveOrder o).1, ((d.saveOrder o).2.mapError .store).map fun _ => o) := by
  rw [keptOrNew.renew, h, Acting.bind_of_ok (Acting.give_ok _ o d)]
  rcases hsave : d.saveOrder o with ⟨d', e | _⟩
  · exact Acting.bind_of_error (by rw [Acting.ofOperation, hsave]; rfl)
  · exact Acting.bind_of_ok (by rw [Acting.ofOperation, hsave]; rfl)

/-- The order of a round is saved as it is determined, or nothing is saved. -/
theorem disk_keptOrNew (id : UInt64) (root : Word) (disclosed : List (Address × Word))
    (d : Disk) : (keptOrNew id root disclosed d).1 = d ∨
      ∃ o, determine id root disclosed = .ok o ∧
        (keptOrNew id root disclosed d).1 = (d.saveOrder o).1 := by
  have hrenew : (keptOrNew.renew id root disclosed d).1 = d ∨
      ∃ o, determine id root disclosed = .ok o ∧
        (keptOrNew.renew id root disclosed d).1 = (d.saveOrder o).1 := by
    cases hnew : determine id root disclosed with
    | error e =>
      rw [keptOrNew.renew, hnew]
      exact .inl rfl
    | ok o => exact .inr ⟨o, rfl, congrArg Prod.fst (renew_of_determine hnew)⟩
  rw [keptOrNew, Acting.bind_of_ok (Acting.state_apply d)]
  cases d.loadOrder id with
  | error e => exact .inl rfl
  | ok found =>
    rw [Acting.bind_of_ok (Acting.give_ok _ found d)]
    cases found with
    | none => exact hrenew
    | some kept =>
      dsimp only
      split
      · exact .inl rfl
      · exact hrenew

end Beacon.OrderRecord

namespace Beacon.Leader

open Acting (Within)

/-- The frame bears with all that work on rounds is made of, and with the search for the next
operator in the rounds that are `searched`. -/
structure Bears (searched : UInt64 → Prop) (R : Leader → Leader → Prop) : Prop where
  refl : ∀ l, R l l
  trans : ∀ {l l' l''}, R l l' → R l' l'' → R l l''
  operation : ∀ {l id r} (op : Round.Operation), l.registry.find? id = some r →
    (op = .nextToRequest → searched id) → R l (l.withRound (r.perform op).1)
  saving : ∀ l (s : Saving), RecordKey.latestRound ≠ s.key → RecordKey.addressBook ≠ s.key →
    R l (l.withDisk (s.act l.disk).1)
  network : ∀ (l : Leader) network, R l { l with network }
  waking : ∀ l id, R l (poke id l)
  waiters : ∀ (l : Leader) waiters, (∀ w ∈ waiters, w.answered = true → w ∈ l.waiters) →
    R l { l with waiters }
  recoveries : ∀ (l : Leader) recoveries, R l { l with recoveries }
  outcomes : ∀ (l : Leader) outcomes, R l { l with outcomes }
  pruning : ∀ (l : Leader) keep, R l { l with registry := l.registry.prune keep }

namespace Bears

variable {searched : UInt64 → Prop} {R : Leader → Leader → Prop} {α β : Type}
  {x y : Acting Leader α} {f : α → Acting Leader β} {id : UInt64} {a : Address}

section Parts

variable (h : Bears searched R)
include h

theorem bind (hx : Within R x) (hf : ∀ b, Within R (f b)) : Within R (x >>= f) :=
  Within.bind h.trans hx hf

theorem answer (b : α) : Within R (pure b : Acting Leader α) := h.refl

theorem refuse (e : NodeError) : Within R (Acting.refuse e : Acting Leader α) := h.refl

theorem state : Within R Acting.state := h.refl

theorem give {ε : Type} (cause : ε → NodeError) (r : Except ε α) :
    Within R (Acting.give cause r) := by
  cases r with
  | ok b => exact h.answer b
  | error e => exact h.refuse (cause e)

theorem mapM {γ : Type} {g : γ → Acting Leader α} (hg : ∀ c, Within R (g c)) (cs : List γ) :
    Within R (cs.mapM g) := by
  induction cs with
  | nil => exact h.answer []
  | cons c cs ih =>
    rw [List.mapM_cons]
    exact h.bind (hg c) fun b => h.bind ih fun bs => h.answer (b :: bs)

theorem round (id : UInt64) : Within R (Leader.round id) := h.bind h.state fun _ => h.give _ _

theorem onRound (op : Round.Operation) {f : Round → Round × Except RoundError α}
    (hf : ∀ r, (f r).1 = (r.perform op).1) (hop : op = .nextToRequest → searched id) :
    Within R (Leader.onRound id f) := by
  intro l
  cases hr : l.registry.find? id with
  | none =>
    rw [onRound_of_none hr]
    exact h.refl l
  | some r =>
    rw [onRound_of_find? hr, hf]
    exact h.operation op hr hop

theorem keepRecord (id : UInt64) (a : Address) : Within R (Leader.keepRecord id a) := by
  refine h.bind (h.round id) fun r => ?_
  cases r.find? a with
  | none => exact h.answer ()
  | some p => exact fun l => h.saving l (.participant id p) nofun nofun

theorem wake (id : UInt64) : Within R (Acting.change (Leader.poke id)) := fun l => h.waking l id

theorem kept (id : UInt64) (a : Address) (ready : Round → Bool) (b : α) : Within R (do
    Leader.keepRecord id a
    if ready (← Leader.round id) then Acting.change (Leader.poke id)
    return b) := by
  refine h.bind (h.keepRecord id a) fun _ => h.bind (h.round id) fun r => ?_
  cases ready r with
  | true => exact h.bind (h.wake id) fun _ => h.answer b
  | false => exact h.answer b

/-! ## Handlers -/

theorem commit (id : UInt64) (a : Address) (cvs sealed : Word) :
    Within R (Leader.commit id a cvs sealed) :=
  h.bind (h.onRound (.acceptCommit a cvs sealed) (fun _ => rfl) nofun) fun place =>
    h.kept id a (·.allCommitted) place

theorem disclose (id : UInt64) (a : Address) (cos : Word) :
    Within R (Leader.disclose id a cos) := by
  refine h.bind (h.onRound (.acceptCos a cos) (fun _ => rfl) nofun) fun accepted => ?_
  cases accepted with
  | true => exact h.kept id a (·.allCosReceived) true
  | false => exact h.answer false

theorem acceptSecret (id : UInt64) (a : Address) (secret : Word) :
    Within R (Leader.acceptSecret id a secret) :=
  h.bind (h.onRound (.acceptReveal a secret) (fun _ => rfl) nofun) fun before =>
    h.bind (h.keepRecord id a) fun _ => h.answer before

theorem acceptRecovery (proof : Recovery) : Within R (Leader.acceptRecovery proof) :=
  h.bind h.state fun l =>
    h.bind (h.onRound (.applyRecovery l.settings.delay proof) (fun _ => rfl) nofun) fun now =>
      h.bind (h.keepRecord _ _) fun _ => h.answer now

theorem callOff (id : UInt64) (a : Address) :
    Within R (Acting.change fun l => poke id (cancelRecovery id a l)) := by
  intro l
  exact h.trans (h.recoveries l _) (h.waking _ id)

theorem submitRecovery (proof : Recovery) : Within R (Leader.submitRecovery proof) :=
  h.bind (h.acceptRecovery proof) fun now => h.bind (h.callOff _ _) fun _ => h.answer now

theorem fault (id : UInt64) (a : Address) : Within R (Leader.fault id a) :=
  h.bind (h.onRound (.markFaulted a) (fun _ => rfl) nofun) fun _ =>
    h.bind (h.keepRecord id a) fun _ => h.wake id

/-! ## Drivers and recovery tasks -/

theorem beginRecovery (id : UInt64) (a : Address) : Within R (Leader.beginRecovery id a) :=
  h.bind (h.onRound (.beginRecovery a) (fun _ => rfl) nofun) fun puzzle =>
    h.bind (h.keepRecord id a) fun _ => h.bind (fun l => h.recoveries l _) fun _ => h.answer puzzle

theorem conclude (t : RecoveryTask) : Within R (Leader.conclude t) := by
  refine h.bind (fun l => h.recoveries l _) fun _ => h.bind h.state fun l => ?_
  split
  · exact h.bind (h.submitRecovery _) fun _ => h.answer ()
  · split
    · exact h.fault _ _
    · exact h.answer ()

theorem waitUntil (d : Driver) (deadline : Option Nat) (ready : Round → Bool) (next : Stage) :
    Within R (Leader.waitUntil d deadline ready next) := by
  refine h.bind h.state fun l => ?_
  split
  · exact h.bind (h.round _) fun _ => h.answer _
  split
  · exact h.refuse _
  · exact h.answer _

theorem keptOrNew (id : UInt64) (root : Word) (disclosed : List (Address × Word)) :
    Within R (Acting.within (·.disk) (fun l disk => { l with disk })
      (OrderRecord.keptOrNew id root disclosed)) := by
  intro l
  show R l (l.withDisk (OrderRecord.keptOrNew id root disclosed l.disk).1)
  obtain hsame | ⟨o, -, hsaved⟩ := OrderRecord.disk_keptOrNew id root disclosed l.disk
  · rw [hsame]
    exact h.refl l
  · rw [hsaved]
    exact h.saving l (.order o) nofun nofun

theorem closeCos (id : UInt64) (root : Word) : Within R (Leader.closeCos id root) := by
  have hbegin (as : List Address) : Within R (do
      Leader.onRound id Round.beginRevealing
      as.mapM (Leader.beginRecovery id)) :=
    h.bind (h.onRound .beginRevealing (fun _ => rfl) nofun) fun _ => h.mapM (h.beginRecovery id) as
  refine h.bind (h.onRound .closeCos (fun _ => rfl) nofun) fun missing =>
    h.bind (h.round id) fun r => ?_
  dsimp only
  split
  · exact h.bind (h.onRound (.installOrder none []) (fun _ => rfl) nofun) fun _ => hbegin missing
  · exact h.bind (h.keptOrNew id root _) fun o =>
      h.bind (h.onRound (.installOrder (some o.combined) o.operators) (fun _ => rfl) nofun) fun _ =>
        hbegin missing

theorem ask (id : UInt64) (a : Address) : Within R (Leader.ask id a) := by
  refine h.bind h.state fun l => h.bind (h.give _ _) fun request => ?_
  cases l.book.peer? a with
  | none => exact h.answer false
  | some peer => exact h.bind (fun l => h.network l _) fun sent => h.answer sent.isOk

theorem launchAll (puzzles : List Puzzle) :
    Within R (Acting.change fun l => puzzles.foldl launch l) := by
  intro l
  show R l (puzzles.foldl launch l)
  induction puzzles generalizing l with
  | nil => exact h.refl l
  | cons puzzle rest ih => exact h.trans (h.recoveries l _) (ih (launch l puzzle))

theorem dropWaiter (id : UInt64) (a : Address) :
    Within R (Acting.change (Leader.dropWaiter id a)) := by
  intro l
  exact h.waiters l _ fun w hw _ => List.mem_of_mem_filter hw

/-- A driver may search for the next operator in its own round, and only when it is to choose
one. -/
theorem step (d : Driver) (hsearch : d.stage = .choosing → searched d.round) :
    Within R (Leader.step d) := by
  refine h.bind h.state fun l => ?_
  cases hstage : d.stage with
  | collectingCommits deadline =>
    exact h.bind (h.waitUntil _ _ _ _) fun next => h.answer (some next)
  | closingCommits =>
    exact h.bind (h.onRound .closeCommits (fun _ => rfl) nofun) fun root =>
      h.bind (h.round _) fun r => h.answer _
  | announcing root committed =>
    exact h.bind (h.give _ _) fun notice => h.bind (fun l => h.network l _) fun _ => h.answer _
  | collectingCos root deadline =>
    exact h.bind (h.waitUntil _ _ _ _) fun next => h.answer (some next)
  | closingCos root => exact h.bind (h.closeCos _ _) fun puzzles => h.answer _
  | launching puzzles => exact h.bind (h.launchAll puzzles) fun _ => h.answer _
  | choosing =>
    refine h.bind (h.onRound .nextToRequest (fun _ => rfl) fun _ => hsearch hstage) fun chosen => ?_
    cases chosen <;> exact h.answer _
  | calling a =>
    refine h.bind (fun l => h.waiters l _ fun w hw hanswered => ?_) fun _ => h.answer _
    rcases List.mem_cons.mp hw with rfl | hw
    · cases hanswered
    · exact List.mem_of_mem_filter hw
  | asking a =>
    refine h.bind (h.ask _ _) fun arrived => ?_
    cases arrived <;> exact h.answer _
  | awaiting a deadline =>
    dsimp only
    split
    · exact h.bind (h.dropWaiter _ _) fun _ => h.answer _
    split
    · exact h.refuse _
    split <;> exact h.answer _
  | givingUp a =>
    refine h.bind (h.dropWaiter _ _) fun _ =>
      h.bind (h.onRound (.markTimedOut a) (fun _ => rfl) nofun) fun marked => ?_
    cases marked with
    | true => exact h.bind (h.beginRecovery _ _) fun puzzle => h.answer _
    | false => exact h.answer _
  | awaitingResolution => exact h.bind (h.waitUntil _ _ _ _) fun next => h.answer (some next)
  | finishing =>
    exact h.bind (h.onRound .finish (fun _ => rfl) nofun) fun outcome =>
      h.bind (fun l => h.outcomes l _) fun _ => h.answer _
  | pruning => exact h.bind (fun l => h.pruning l _) fun _ => h.answer none

end Parts

theorem mono {R' : Leader → Leader → Prop} (h : Bears searched R)
    (hR : ∀ {l l'}, R l l' → R' l l') (htrans : ∀ {l l' l''}, R' l l' → R' l' l'' → R' l l'') :
    Bears searched R' where
  refl l := hR (h.refl l)
  trans := htrans
  operation op hr hop := hR (h.operation op hr hop)
  saving l s hlatest hbook := hR (h.saving l s hlatest hbook)
  network l network := hR (h.network l network)
  waking l id := hR (h.waking l id)
  waiters l waiters hwaiters := hR (h.waiters l waiters hwaiters)
  recoveries l recoveries := hR (h.recoveries l recoveries)
  outcomes l outcomes := hR (h.outcomes l outcomes)
  pruning l keep := hR (h.pruning l keep)

end Bears

/-! ## The opening of a round -/

theorem within_raiseLatest (id : UInt64) :
    Within (fun l l' => ∃ disk latest, l' = { l with disk, latest }) (raiseLatest id) := by
  intro l
  rw [raiseLatest, Acting.bind_of_ok (Acting.state_apply l)]
  split
  · rcases hsave : onDisk (·.saveLatest id) l with ⟨l', e | _⟩
    · rw [Acting.bind_of_error hsave]
      obtain ⟨⟨disk, rfl⟩, -⟩ := onDisk_eq hsave
      exact ⟨disk, l.latest, rfl⟩
    · rw [Acting.bind_of_ok hsave]
      obtain ⟨⟨disk, rfl⟩, -⟩ := onDisk_eq hsave
      exact ⟨disk, id, rfl⟩
  · exact ⟨l.disk, l.latest, rfl⟩

theorem Bears.openRound {searched : UInt64 → Prop} {R : Leader → Leader → Prop}
    (h : Bears searched R) (id : UInt64) (eligible : List Address)
    (hcreate : ∀ l : Leader, R l { l with registry := (l.registry.create id eligible).1 })
    (hlatest : ∀ (l : Leader) disk latest, R l { l with disk, latest })
    (hstart : ∀ l, R l (startDriver id l)) : Within R (Leader.openRound id eligible) := by
  have hraise : Within R (raiseLatest id) := by
    intro l
    obtain ⟨disk, latest, hl⟩ := within_raiseLatest id l
    rw [hl]
    exact hlatest l disk latest
  have hopens : Within R (Acting.within (·.registry)
      (fun (l : Leader) registry => { l with registry })
      (.ofOperation .round (·.create id eligible)) : Acting Leader Round) := hcreate
  exact h.bind h.state fun l => h.bind (h.give _ _) fun notice => h.bind hopens fun _ =>
    h.bind hraise fun _ => h.bind hstart fun _ l => h.network l _

end Beacon.Leader
