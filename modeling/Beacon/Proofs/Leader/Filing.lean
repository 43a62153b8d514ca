import Beacon.Proofs.Leader.Requests
import Beacon.Proofs.Round.OnFile

/-
  The files of operators' records. Whoever changes a record writes it before the round is free
  again, but for those changes that are not written at all. So where every save succeeds, each
  file says of its record what it should (`Participant.onFile`), whenever no round is held.

  In between one record may be due: it was changed and is not written yet. The invariant names
  it (`Filed`); an action may leave a record due and the next one writes it (`Owing`), or first
  changes it again, as when the wait for an operator ends and its recovery is begun (`Expired`).
-/

namespace Beacon

/-- The file of an operator's record says what it should say of it. -/
def Disk.Tells (d : Disk) (id : UInt64) (p : Participant) : Prop :=
  d.find? (FileKey.participant id p.operator).name =
    some (.file (Format.participant.print .pretty p.onFile))

theorem Disk.Tells.congr {d : Disk} {id : UInt64} {p q : Participant} (h : d.Tells id p)
    (heq : p.onFile = q.onFile) : d.Tells id q := by
  have hoperator : p.operator = q.operator := congrArg (·.operator) heq
  rw [Tells, ← hoperator, ← heq]
  exact h

namespace Leader

open Acting (Ensures Preserves preserves_answer preserves_refuse preserves_give)

variable {l l' : Leader} {due : Option (UInt64 × Address)} {id : UInt64} {a : Address} {r : Round}
  {d : Driver} {α : Type}

/-! ## The invariant -/

/-- Saves succeed, and the file of every record of every round says what it should, but for the
record that is due. -/
structure Filed (due : Option (UInt64 × Address)) (l : Leader) : Prop where
  reliable : l.disk.Reliable
  reachable : ∀ id r, l.registry.find? id = some r → r.Reachable
  tells : ∀ id r, l.registry.find? id = some r → ∀ p ∈ r.records,
    due ≠ some (id, p.operator) → l.disk.Tells id p

namespace Filed

theorem congr (h : Filed due l) (hregistry : ∀ id, l'.registry.find? id = l.registry.find? id)
    (hdisk : l'.disk = l.disk) : Filed due l' := by
  refine ⟨?_, fun id r hr => ?_, fun id r hr p hp hdue => ?_⟩
  · rw [hdisk]
    exact h.reliable
  · rw [hregistry] at hr
    exact h.reachable id r hr
  · rw [hregistry] at hr
    rw [hdisk]
    exact h.tells id r hr p hp hdue

theorem of_eq (h : Filed due l) (hregistry : l'.registry = l.registry) (hdisk : l'.disk = l.disk) :
    Filed due l' :=
  h.congr (fun id => by rw [hregistry]) hdisk

theorem refused (h : Filed due l) (hr : l.registry.find? id = some r) : Filed due (l.withRound r) :=
  h.congr (Registry.find?_replace_found hr) rfl

theorem spare (h : Filed none l) : Filed due l :=
  ⟨h.reliable, h.reachable, fun id r hr p hp _ => h.tells id r hr p hp nofun⟩

/-- Something is done to a round, whose records are on file as before but for the one due. -/
theorem performed (h : Filed due l) (hr : l.registry.find? id = some r) (op : Round.Operation)
    (hsame : ∀ q ∈ (r.perform op).1.records, due ≠ some (id, q.operator) →
      ∃ p ∈ r.records, p.onFile = q.onFile) : Filed due (l.withRound (r.perform op).1) := by
  have hround : ∀ id' r', (l.withRound (r.perform op).1).registry.find? id' = some r' →
      (id' = id ∧ r' = (r.perform op).1) ∨ l.registry.find? id' = some r' := by
    intro id' r' hr'
    by_cases hid : id' = id
    · rw [hid, find?_performed hr] at hr'
      exact .inl ⟨hid, (Option.some.inj hr').symm⟩
    · rw [withRound, Registry.find?_replace, Option.map_eq_some_iff] at hr'
      obtain ⟨s, hs, hr'⟩ := hr'
      have hne : s.id ≠ (r.perform op).1.id := by
        rw [Round.id_perform, Registry.id_of_find? hs, Registry.id_of_find? hr]
        exact hid
      rw [if_neg hne] at hr'
      exact .inr (hr' ▸ hs)
  refine ⟨h.reliable, fun id' r' hr' => ?_, fun id' r' hr' q hq hdue => ?_⟩
  · rcases hround id' r' hr' with ⟨-, rfl⟩ | hr'
    · exact (h.reachable id r hr).perform op
    · exact h.reachable id' r' hr'
  · rcases hround id' r' hr' with ⟨rfl, rfl⟩ | hr'
    · obtain ⟨p, hp, hsame⟩ := hsame q hq hdue
      have hoperator : p.operator = q.operator := congrArg (·.operator) hsame
      exact (h.tells id' r hr p hp (hoperator ▸ hdue)).congr hsame
    · exact h.tells id' r' hr' q hq hdue

/-- Something is saved that is no record of an operator, or the one that is due. -/
theorem saved (h : Filed due l) (s : Saving)
    (hs : ∀ id a, due ≠ some (id, a) → s.key ≠ .participant id a) :
    Filed due (l.withDisk (s.act l.disk).1) := by
  refine ⟨(h.reliable.act s).2, h.reachable, fun id r hr p hp hdue => ?_⟩
  have hothers := (Disk.save_spec l.disk s.key.file s.key.format s.record).1
  rw [← Saving.act_eq] at hothers
  have hne : (RecordKey.participant id p.operator).file ≠ s.key.file := fun hfile =>
    hs id p.operator hdue (RecordKey.file_injective hfile.symm)
  show (s.act l.disk).1.find? _ = _
  rw [hothers (.participant id p.operator) hne]
  exact h.tells id r hr p hp hdue

/-- No record is due any more once the file of that one says what it should. -/
theorem settle (h : Filed (some (id, a)) l) (hr : l.registry.find? id = some r)
    (hown : ∀ p ∈ r.records, p.operator = a → l.disk.Tells id p) : Filed none l := by
  refine ⟨h.reliable, h.reachable, fun id' r' hr' p hp _ => ?_⟩
  by_cases hdue : some (id, a) = some (id', p.operator)
  · obtain ⟨rfl, rfl⟩ := Prod.mk.inj (Option.some.inj hdue)
    obtain rfl := Option.some.inj (hr.symm.trans hr')
    exact hown p hp rfl
  · exact h.tells id' r' hr' p hp hdue

theorem load {p : Participant} (h : Filed none l) (hr : l.registry.find? id = some r)
    (hp : p ∈ r.records) (hindex : p.commitIndex < UInt64.size) :
    l.disk.load (.participant id p.operator) .participant = .ok (some p.onFile) :=
  Disk.load_of_file (Format.keeps_participant (p := p.onFile) hindex) (h.tells id r hr p hp nofun)

theorem pruned (h : Filed due l) (keep : Nat) :
    Filed due { l with registry := l.registry.prune keep } :=
  ⟨h.reliable, fun id r hr => h.reachable id r (Registry.find?_prune hr),
    fun id r hr => h.tells id r (Registry.find?_prune hr)⟩

end Filed

/-! ## Records that are due -/

/-- One record is due, and is to be written as it stands. -/
def Owing (id : UInt64) (a : Address) (l : Leader) : Prop :=
  Filed (some (id, a)) l ∧ ∃ r, l.registry.find? id = some r ∧
    ∀ p ∈ r.records, p.operator = a → p.onFile = p

/-- One record is due, of an operator that timed out. -/
def Expired (id : UInt64) (a : Address) (l : Leader) : Prop :=
  Filed (some (id, a)) l ∧ ∃ r, l.registry.find? id = some r ∧ r.standingOf a = some .timedOut

/-- Something is done to the record of one operator, which is due from then on. -/
theorem Filed.changed (h : Filed (some (id, a)) l) (hr : l.registry.find? id = some r)
    (op : Round.Operation)
    (hothers : ∀ p ∈ (r.perform op).1.records, p.operator ≠ a → p ∈ r.records) :
    Filed (some (id, a)) (l.withRound (r.perform op).1) := by
  refine h.performed hr op fun q hq hdue => ⟨q, hothers q hq ?_, rfl⟩
  rintro rfl
  exact hdue rfl

theorem Filed.owing (h : Filed (some (id, a)) l) (hr : l.registry.find? id = some r)
    (op : Round.Operation) (hdue : r.Due a (r.perform op).1) :
    Owing id a (l.withRound (r.perform op).1) :=
  ⟨h.changed hr op hdue.others, _, find?_performed hr op, hdue.own⟩

theorem ensures_keepRecord :
    Ensures (Owing id a) (keepRecord id a) (fun _ => Filed none) (Filed none) := by
  refine Acting.ensures_iff.mpr ?_
  rintro l ⟨hfiled, r, hr, hown⟩
  have hd := (hfiled.reachable id r hr).nodup
  rw [keepRecord, Acting.bind_of_ok (round_of_find? hr)]
  cases hf : r.find? a with
  | none =>
    refine hfiled.settle hr fun p hp hpa => ?_
    exact absurd (hpa ▸ List.mem_map_of_mem hp) (Round.find?_eq_none.mp hf)
  | some p =>
    obtain ⟨hp, hpa⟩ := Round.mem_of_find? hf
    have hsaved := hfiled.saved (.participant id p) fun id' a' hne hkey => by
      cases hkey
      exact hne (by rw [hpa])
    -- The save succeeds, and what it wrote is what the file should say.
    obtain ⟨hdone, -⟩ := hfiled.reliable.act (.participant id p)
    have hwritten : (l.disk.saveParticipant id p).1.Tells id p := by
      obtain ⟨-, hfile⟩ | ⟨herror, -⟩ :=
        (Disk.save_spec l.disk (.participant id p.operator) .participant p).2
      · rw [Disk.Tells, hown p hp hpa]
        exact hfile
      · have hboth := hdone.symm.trans herror
        cases hboth
    refine hsaved.settle hr fun q hq hqa => ?_
    obtain rfl : q = p := List.inj_on_of_nodup_map hd hq hp (hqa.trans hpa.symm)
    exact hwritten

/-! ## Actions on rounds -/

theorem preserves_round (id : UInt64) : Preserves (Filed none) (round id) :=
  Acting.ensures_state.bind fun _ => preserves_give _ _

theorem preserves_change {f : Leader → Leader}
    (h : ∀ l, (f l).registry = l.registry ∧ (f l).disk = l.disk) :
    Preserves (Filed none) (Acting.change f) :=
  Acting.ensures_change fun l hl => hl.of_eq (h l).1 (h l).2

theorem preserves_wake (id : UInt64) : Preserves (Filed none) (Acting.change (poke id)) :=
  preserves_change fun _ => ⟨rfl, rfl⟩

/-- Something is done to a round, or refused to it, of which nothing is written. -/
theorem preserves_onRound (f : Round → Round × Except RoundError α) (op : Round.Operation)
    (hf : ∀ r, (f r).1 = (r.perform op).1)
    (hsame : ∀ r : Round, r.Reachable → r.SameOnFile (f r).1) :
    Preserves (Filed none) (onRound id f) := by
  refine Acting.ensures_iff.mpr fun l hl => ?_
  cases hr : l.registry.find? id with
  | none =>
    rw [onRound_of_none hr]
    exact hl
  | some r =>
    rw [onRound_of_find? hr, hf]
    refine hl.performed hr op fun q hq _ => ?_
    rw [← hf] at hq
    have hmem := List.mem_map_of_mem (f := (·.onFile)) hq
    rw [hsame r (hl.reachable id r hr)] at hmem
    exact List.mem_map.mp hmem

/-- Something is done to a round that refusals leave alone. -/
theorem ensures_onRound {f : Round → Round × Except RoundError α} {Q : α → Leader → Prop}
    (hrefused : ∀ r : Round, r.KeptIfRefused (f r))
    (hdone : ∀ l r b, Filed none l → l.registry.find? id = some r → (f r).2 = .ok b →
      Q b (l.withRound (f r).1)) :
    Ensures (Filed none) (onRound id f) Q (Filed none) := by
  intro l hl
  refine ⟨fun l' b h => ?_, fun l' e h => ?_⟩
  · obtain ⟨r, hr, hb, rfl⟩ := onRound_eq_ok h
    exact hdone l r b hl hr hb
  · rcases onRound_eq_error h with ⟨rfl, -⟩ | ⟨r, c, hr, hc, rfl, -⟩
    · exact hl
    · rw [hrefused r c hc]
      exact hl.refused hr

/-- Something is done to the record of an operator, which is to be written as it stands. -/
theorem ensures_owing (f : Round → Round × Except RoundError α) (op : Round.Operation)
    (hf : ∀ r, (f r).1 = (r.perform op).1) (hrefused : ∀ r : Round, r.KeptIfRefused (f r))
    (hdue : ∀ (r r' : Round) b, r.Reachable → f r = (r', .ok b) → r.Due a r') :
    Ensures (Filed none) (onRound id f) (fun _ => Owing id a) (Filed none) := by
  refine ensures_onRound hrefused fun l r b hl hr hb => ?_
  have hown := hdue r (f r).1 b (hl.reachable id r hr) (Prod.ext rfl hb)
  rw [hf] at hown ⊢
  exact hl.spare.owing hr op hown

theorem ensures_kept (id : UInt64) (a : Address) (ready : Round → Bool) (b : α) :
    Ensures (Owing id a) (do
      keepRecord id a
      if ready (← round id) then Acting.change (poke id)
      return b) (fun _ => Filed none) (Filed none) := by
  refine ensures_keepRecord.bind fun _ => (preserves_round id).bind fun r => ?_
  cases ready r with
  | true => exact (preserves_wake id).bind fun _ => preserves_answer
  | false => exact preserves_answer

/-! ## Handlers -/

theorem preserves_commit (id : UInt64) (a : Address) (cvs sealed : Word) :
    Preserves (Filed none) (commit id a cvs sealed) := by
  refine (ensures_owing (·.acceptCommit a cvs sealed) (.acceptCommit a cvs sealed) (fun _ => rfl)
    (fun r => (r.acceptCommit_allOrNothing a cvs sealed).keptIfRefused) ?_).bind
      fun place => ensures_kept id a (·.allCommitted) place
  exact fun r r' place _ h => Round.due_acceptCommit h

/-- Nothing is written of a first stage that was disclosed before. -/
theorem preserves_disclose (id : UInt64) (a : Address) (cos : Word) :
    Preserves (Filed none) (disclose id a cos) := by
  have haccept : Ensures (Filed none) (onRound id (·.acceptCos a cos))
      (fun accepted l => if accepted then Owing id a l else Filed none l) (Filed none) := by
    refine ensures_onRound (fun r => r.keptIfRefused_acceptCos a cos) fun l r accepted hl hr h => ?_
    cases accepted with
    | true =>
      have hdue := Round.due_acceptCos (hl.reachable id r hr) (Prod.ext rfl h)
      exact hl.spare.owing hr (.acceptCos a cos) hdue
    | false =>
      show Filed none (l.withRound (r.acceptCos a cos).1)
      rw [Round.acceptCos_repeated h]
      exact hl.refused hr
  refine haccept.bind fun accepted => ?_
  cases accepted with
  | true => exact ensures_kept id a (·.allCosReceived) true
  | false => exact preserves_answer

theorem preserves_acceptSecret (id : UInt64) (a : Address) (secret : Word) :
    Preserves (Filed none) (acceptSecret id a secret) := by
  refine (ensures_owing (·.acceptReveal a secret) (.acceptReveal a secret) (fun _ => rfl)
    (fun r => (r.acceptReveal_allOrNothing a secret).keptIfRefused) ?_).bind
      fun before => ensures_keepRecord.bind fun _ => preserves_answer
  exact fun r r' before _ h => Round.due_acceptReveal h

theorem filed_noteSecret (h : Filed none l) (id : UInt64) (a : Address) (before : Standing) :
    Filed none (noteSecret id a before l) := by
  refine h.of_eq (registry_noteSecret id a before l) ?_
  unfold noteSecret
  split
  · rfl
  · rfl

theorem preserves_acceptRecovery (proof : Recovery) :
    Preserves (Filed none) (acceptRecovery proof) := by
  refine Acting.ensures_state.bind fun l =>
    (ensures_owing (·.applyRecovery l.settings.delay proof)
      (.applyRecovery l.settings.delay proof) (fun _ => rfl)
      (fun r => (r.applyRecovery_allOrNothing l.settings.delay proof).keptIfRefused) ?_).bind
        fun now => ensures_keepRecord.bind fun _ => preserves_answer
  exact fun r r' now _ h => Round.due_applyRecovery h

theorem preserves_callOff (id : UInt64) (a : Address) :
    Preserves (Filed none) (Acting.change fun l => poke id (cancelRecovery id a l)) :=
  preserves_change fun _ => ⟨rfl, rfl⟩

theorem preserves_submitRecovery (proof : Recovery) :
    Preserves (Filed none) (submitRecovery proof) :=
  (preserves_acceptRecovery proof).bind fun _ =>
    (preserves_callOff _ _).bind fun _ => preserves_answer

theorem preserves_fault (id : UInt64) (a : Address) : Preserves (Filed none) (fault id a) := by
  refine (ensures_owing (·.markFaulted a) (.markFaulted a) (fun _ => rfl)
    (fun r => r.keptIfRefused_markFaulted a) ?_).bind
      fun _ => ensures_keepRecord.bind fun _ => preserves_wake id
  exact fun r r' _ _ h => Round.due_markFaulted h

theorem preserves_register (a : Address) (peer : String) :
    Preserves (Filed none) (register a peer) := by
  refine Acting.ensures_iff.mpr fun l hl => ?_
  unfold register enroll
  split_ifs
  · exact hl
  · have hentered : Filed none { l with book := l.book.insert a peer } := hl.of_eq rfl rfl
    exact hentered.saved (.addressBook (l.book.insert a peer)) nofun

/-! ## Opening a round -/

theorem Filed.created (h : Filed none l) (id : UInt64) (eligible : List Address) :
    Filed none { l with registry := (l.registry.create id eligible).1 } := by
  obtain ⟨-, hsame⟩ | ⟨hnew, hcreated⟩ := l.registry.create_spec id eligible
  · rw [hsame]
    exact h.of_eq rfl rfl
  · have hround : ∀ id' r, (l.registry.create id eligible).1.find? id' = some r →
        r = .start id eligible ∨ l.registry.find? id' = some r := by
      intro id' r hr
      rw [hcreated] at hr
      by_cases hid : id' = id
      · rw [hid] at hr
        have hstart := Registry.find?_insertRound (r := .start id eligible)
          (Registry.find?_eq_none_iff.mpr hnew)
        exact .inl (Option.some.inj (hr.symm.trans hstart))
      · rw [Registry.find?, Registry.find?_insertRound_ne (Ne.symm hid)] at hr
        exact .inr hr
    refine ⟨h.reliable, fun id' r hr => ?_, fun id' r hr p hp hdue => ?_⟩
    · rcases hround id' r hr with rfl | hr
      · exact Round.reachable_run id eligible []
      · exact h.reachable id' r hr
    · rcases hround id' r hr with rfl | hr
      · cases hp
      · exact h.tells id' r hr p hp hdue

theorem preserves_raiseLatest (id : UInt64) : Preserves (Filed none) (raiseLatest id) := by
  refine Acting.ensures_state.bind fun l => ?_
  split
  · refine Ensures.bind (Acting.ensures_iff.mpr fun l hl => ?_) fun _ =>
      preserves_change fun _ => ⟨rfl, rfl⟩
    exact hl.saved (.latestRound id) nofun
  · exact preserves_answer

theorem preserves_openRound (id : UInt64) (eligible : List Address) :
    Preserves (Filed none) (openRound id eligible) := by
  refine Acting.ensures_state.bind fun l => (preserves_give _ _).bind fun notice => ?_
  refine Ensures.bind (Acting.ensures_iff.mpr fun l hl => hl.created id eligible) fun _ => ?_
  refine (preserves_raiseLatest id).bind fun _ => ?_
  refine Ensures.bind (preserves_change fun _ => ⟨rfl, rfl⟩) fun _ => ?_
  exact preserves_change fun _ => ⟨rfl, rfl⟩

/-! ## Recovery tasks -/

theorem ensures_beginRecovery {P : Leader → Prop}
    (h : Ensures P (onRound id (·.beginRecovery a)) (fun _ => Owing id a) (Filed none)) :
    Ensures P (beginRecovery id a) (fun _ => Filed none) (Filed none) :=
  h.bind fun _ => ensures_keepRecord.bind fun _ =>
    Ensures.bind (preserves_change fun _ => ⟨rfl, rfl⟩) fun _ => preserves_answer

theorem preserves_beginRecovery (id : UInt64) (a : Address) :
    Preserves (Filed none) (beginRecovery id a) := by
  refine ensures_beginRecovery (ensures_owing (·.beginRecovery a) (.beginRecovery a) (fun _ => rfl)
    (fun r => r.keptIfRefused_beginRecovery a) ?_)
  exact fun r r' puzzle _ h => Round.due_beginRecovery h

/-- The recovery of an operator that timed out is not refused. -/
theorem ensures_recovering :
    Ensures (Expired id a) (onRound id (·.beginRecovery a)) (fun _ => Owing id a) (Filed none) := by
  rintro l ⟨hfiled, r, hr, hstands⟩
  obtain ⟨puzzle, -, hbegun⟩ := Round.beginRecovery_of_timedOut hstands
  have hdone : (r.beginRecovery a).2 = .ok puzzle := by rw [hbegun]
  have howing := hfiled.owing hr (.beginRecovery a) (Round.due_beginRecovery (Prod.ext rfl hdone))
  rw [onRound_of_find? hr, hdone]
  refine ⟨fun l' _ h => ?_, fun l' e h => ?_⟩
  · cases h
    exact howing
  · cases h

theorem preserves_conclude (t : RecoveryTask) : Preserves (Filed none) (conclude t) := by
  refine Ensures.bind (preserves_change fun _ => ⟨rfl, rfl⟩) fun _ =>
    Acting.ensures_state.bind fun l => ?_
  split
  · exact (preserves_submitRecovery _).bind fun _ => preserves_answer
  · split
    · exact preserves_fault _ _
    · exact preserves_answer

/-! ## Drivers -/

theorem preserves_waitUntil (d : Driver) (deadline : Option Nat) (ready : Round → Bool)
    (next : Stage) : Preserves (Filed none) (waitUntil d deadline ready next) := by
  refine Acting.ensures_state.bind fun l => ?_
  split
  · exact (preserves_round _).bind fun _ => preserves_answer
  split
  · exact preserves_refuse
  · exact preserves_answer

theorem preserves_keptOrNew (id : UInt64) (root : Word) (disclosed : List (Address × Word)) :
    Preserves (Filed none) (Acting.within (·.disk) (fun l disk => { l with disk })
      (OrderRecord.keptOrNew id root disclosed)) := by
  refine Acting.ensures_iff.mpr fun l hl => ?_
  show Filed none (l.withDisk (OrderRecord.keptOrNew id root disclosed l.disk).1)
  obtain hsame | ⟨o, -, hsaved⟩ := OrderRecord.disk_keptOrNew id root disclosed l.disk
  · rw [hsame]
    exact hl.of_eq rfl rfl
  · rw [hsaved]
    exact hl.saved (.order o) nofun

theorem preserves_closeCos (id : UInt64) (root : Word) :
    Preserves (Filed none) (closeCos id root) := by
  have hbegin (as : List Address) : Preserves (Filed none) (do
      onRound id Round.beginRevealing
      as.mapM (beginRecovery id)) :=
    (preserves_onRound Round.beginRevealing .beginRevealing (fun _ => rfl)
      fun r _ => r.onFile_turnsPhase .beginRevealing rfl).bind
        fun _ => Preserves.mapM (preserves_beginRecovery id) as
  have hinstall (combined : Option Word) (order : List Address) :
      Preserves (Filed none) (onRound id (·.installOrder combined order)) :=
    preserves_onRound (·.installOrder combined order) (.installOrder combined order) (fun _ => rfl)
      fun r _ => r.onFile_turnsPhase (.installOrder combined order) rfl
  refine (preserves_onRound (·.closeCos) .closeCos (fun _ => rfl) fun r _ => r.onFile_closeCos).bind
    fun missing => (preserves_round id).bind fun r => ?_
  dsimp only
  split
  · exact (hinstall none []).bind fun _ => hbegin missing
  · exact (preserves_keptOrNew id root _).bind fun o =>
      (hinstall (some o.combined) o.operators).bind fun _ => hbegin missing

theorem preserves_ask (id : UInt64) (a : Address) : Preserves (Filed none) (ask id a) := by
  refine Acting.ensures_state.bind fun l => (preserves_give _ _).bind fun request => ?_
  cases l.book.peer? a with
  | none => exact preserves_answer
  | some peer =>
    exact Ensures.bind (Acting.ensures_iff.mpr fun l hl => hl.of_eq rfl rfl) fun sent =>
      preserves_answer

theorem filed_launch (h : Filed none l) (puzzles : List Puzzle) :
    Filed none (puzzles.foldl launch l) := by
  induction puzzles generalizing l with
  | nil => exact h
  | cons puzzle rest ih => exact ih (h.of_eq rfl rfl)

/-- When the wait for an operator ends its record is due, and the recovery that is begun then
writes it. -/
theorem preserves_giveUp (id : UInt64) (a : Address) (d : Driver) :
    Preserves (Filed none) (do
      if ← onRound id (·.markTimedOut a) then
        return d.goTo (.launching [← beginRecovery id a])
      else return d.goTo .choosing : Acting Leader (Option Driver)) := by
  have hmark : Ensures (Filed none) (onRound id (·.markTimedOut a))
      (fun marked l => if marked then Expired id a l else Filed none l) (Filed none) := by
    refine ensures_onRound (fun r => r.keptIfRefused_markTimedOut a) fun l r marked hl hr h => ?_
    cases marked with
    | true =>
      obtain ⟨hothers, hstands⟩ := Round.markTimedOut_eq_true (Prod.ext rfl h)
      have hchanged := hl.spare.changed hr (.markTimedOut a) hothers
      exact ⟨hchanged, _, find?_performed hr (.markTimedOut a), hstands⟩
    | false =>
      show Filed none (l.withRound (r.markTimedOut a).1)
      rw [Round.markTimedOut_answered h]
      exact hl.refused hr
  refine hmark.bind fun marked => ?_
  cases marked with
  | true =>
    exact (ensures_beginRecovery ensures_recovering).bind fun _ => preserves_answer
  | false => exact preserves_answer

theorem preserves_step (d : Driver) : Preserves (Filed none) (step d) := by
  refine Acting.ensures_state.bind fun l => ?_
  cases d.stage with
  | collectingCommits deadline =>
    exact (preserves_waitUntil _ _ _ _).bind fun _ => preserves_answer
  | closingCommits =>
    exact (preserves_onRound Round.closeCommits .closeCommits (fun _ => rfl)
      fun r _ => r.onFile_turnsPhase .closeCommits rfl).bind
        fun root => (preserves_round _).bind fun _ => preserves_answer
  | announcing root committed =>
    exact (preserves_give _ _).bind fun notice =>
      Ensures.bind (preserves_change fun _ => ⟨rfl, rfl⟩) fun _ => preserves_answer
  | collectingCos root deadline =>
    exact (preserves_waitUntil _ _ _ _).bind fun _ => preserves_answer
  | closingCos root => exact (preserves_closeCos _ _).bind fun _ => preserves_answer
  | launching puzzles =>
    exact Ensures.bind (Acting.ensures_change fun l hl => filed_launch hl puzzles) fun _ =>
      preserves_answer
  | choosing =>
    refine (preserves_onRound (fun r => (r.nextToRequest.1, .ok r.nextToRequest.2))
      .nextToRequest (fun _ => rfl) fun r hr => Round.onFile_nextToRequest hr.nodup).bind
        fun chosen => ?_
    cases chosen <;> exact preserves_answer
  | calling a => exact Ensures.bind (preserves_change fun _ => ⟨rfl, rfl⟩) fun _ => preserves_answer
  | asking a =>
    refine (preserves_ask _ _).bind fun arrived => ?_
    cases arrived <;> exact preserves_answer
  | awaiting a deadline =>
    dsimp only
    split
    · exact Ensures.bind (preserves_change fun _ => ⟨rfl, rfl⟩) fun _ => preserves_answer
    split
    · exact preserves_refuse
    split <;> exact preserves_answer
  | givingUp a =>
    exact Ensures.bind (preserves_change fun _ => ⟨rfl, rfl⟩) fun _ => preserves_giveUp _ a d
  | awaitingResolution => exact (preserves_waitUntil _ _ _ _).bind fun _ => preserves_answer
  | finishing =>
    exact (preserves_onRound Round.finish .finish (fun _ => rfl) fun r _ => r.onFile_turnsPhase .finish rfl).bind
      fun outcome => Ensures.bind (preserves_change fun _ => ⟨rfl, rfl⟩) fun _ => preserves_answer
  | pruning =>
    exact Ensures.bind (Acting.ensures_change fun l hl => hl.pruned _) fun _ => preserves_answer

theorem filed_drive (h : Filed none l) (d : Driver) : Filed none (drive d l) := by
  have hstep := Acting.ensures_iff.mp (preserves_step d) l h
  unfold drive
  split
  · rename_i l' next hdone
    rw [hdone] at hstep
    exact hstep.of_eq rfl rfl
  · rename_i l' result _ hended
    rw [hended] at hstep
    exact hstep.of_eq rfl rfl

end Leader

end Beacon
