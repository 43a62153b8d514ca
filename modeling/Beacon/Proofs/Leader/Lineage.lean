import Beacon.Proofs.Leader.Numbers

/-
  A leader through all its runs in one directory. Rounds are opened under any number or under
  the next one, others are at work on the rounds meanwhile, rounds are pruned, the disk may
  fail, and the leader is started again and again.

  The highest number of a leader is what its file holds (`Sound.file`), and it has come up to
  the number of every round that was opened, in this run or an earlier one (`Sound.opened`). A
  round that could not be opened since its number was not kept stays in the registry, without a
  driver; its number is not given away again as long as it does (`openNext_not_taken`), though
  it may be after the next start. So the numbers of opened rounds are never given away again
  (`nextRoundId_fresh`).
-/

namespace Beacon

/-! ## The next number -/

namespace Leader

variable {l : Leader} {id : UInt64}

theorem lastRoundId_eq (l : Leader) : l.lastRoundId =
    if l.latest ≤ l.registry.latest?.getD 0 then l.registry.latest?.getD 0 else l.latest := rfl

theorem latest_le_lastRoundId (l : Leader) : l.latest ≤ l.lastRoundId := by
  rw [lastRoundId_eq]
  split
  · assumption
  · exact UInt64.le_refl _

theorem le_lastRoundId (h : l.registry.Ascending) (hid : id ∈ l.registry.ids) :
    id ≤ l.lastRoundId := by
  have hle := Registry.le_latest h hid
  rw [lastRoundId_eq]
  split
  · exact hle
  · rename_i hlt
    exact UInt64.le_trans hle (UInt64.le_of_lt (UInt64.not_le.mp hlt))

theorem nextRoundId?_of_lt (h : l.lastRoundId.toNat + 1 < UInt64.size) :
    ∃ next, l.nextRoundId? = some next ∧ l.lastRoundId < next := by
  refine ⟨l.lastRoundId + 1, if_pos h, ?_⟩
  have hsum : (l.lastRoundId + 1).toNat = l.lastRoundId.toNat + 1 := by
    rw [UInt64.toNat_add]
    exact Nat.mod_eq_of_lt h
  rw [UInt64.lt_iff_toNat_lt, hsum]
  exact Nat.lt_succ_self _

theorem openNext_eq (h : l.nextRoundId? = some id) :
    openNext l = ((openRound id l.book.operators l).1,
      (openRound id l.book.operators l).2.map fun _ => id) := by
  rw [openNext, Acting.bind_of_ok (Acting.state_apply l), h]
  rcases hopen : openRound id l.book.operators l with ⟨l', e | _⟩
  · exact Acting.bind_of_error hopen
  · exact Acting.bind_of_ok hopen

/-- The next round is not refused for a round's reason, since no round has its number. -/
theorem openNext_not_taken (hregistry : l.registry.Ascending)
    (h : l.lastRoundId.toNat + 1 < UInt64.size) (cause : RoundError) :
    (openNext l).2 ≠ .error (.round cause) := by
  obtain ⟨next, hnext, hlast⟩ := nextRoundId?_of_lt h
  rw [openNext_eq hnext]
  have hopens := openRound_opens next l.book.operators l
  cases hanswer : (openRound next l.book.operators l).2 with
  | ok _ => nofun
  | error e =>
    intro hrefused
    obtain rfl : e = .round cause := Except.error.inj hrefused
    have hle := le_lastRoundId hregistry (hopens.taken cause hanswer)
    exact UInt64.lt_irrefl next (UInt64.lt_of_le_of_lt hle hlast)

theorem openNext_none (h : l.nextRoundId? = none) : openNext l = (l, .error .noRoundLeft) := by
  rw [openNext, Acting.bind_of_ok (Acting.state_apply l), h]
  rfl

end Leader

/-! ## All runs -/

/-- A leader in one of its runs, with the numbers under which rounds were to be opened in this
run and all before, and the numbers under which they were. -/
structure Lineage where
  leader : Leader
  tried : List UInt64
  opened : List UInt64

namespace Lineage

/-- What happens to a leader. Its network, its clock and whether it is stopped are up to others. -/
inductive Event where
  | openRound (id : UInt64) (eligible : List Address)
  | openNext
  | prune (keep : Nat)
  | receive (kind : Kind) (payload : Payload)
  | submitRecovery (proof : Recovery)
  | drive (d : Driver)
  | conclude (t : RecoveryTask)
  | change (network : Network) (clock : Nat) (stopped : Bool)
  | restart (settings : LeaderSettings) (signer : Signer) (network : Network) (clock : Nat)

def first (l : Leader) : Lineage := { leader := l, tried := [], opened := [] }

/-- A round was to be opened under a number, and the answer was the number or a refusal. -/
def attempt (s : Lineage) (id : UInt64) (r : Leader × Except NodeError UInt64) : Lineage :=
  { leader := r.1, tried := id :: s.tried, opened := r.2.toOption.toList ++ s.opened }

/-- What happens, one at a time. A leader that cannot be started again stays as it is. -/
def step (s : Lineage) : Event → Lineage
  | .openRound id eligible =>
    let r := Leader.openRound id eligible s.leader
    s.attempt id (r.1, r.2.map fun _ => id)
  | .openNext =>
    match s.leader.nextRoundId? with
    | some id => s.attempt id (Leader.openNext s.leader)
    | none => { s with leader := (Leader.openNext s.leader).1 }
  | .prune keep =>
    { s with leader := { s.leader with registry := s.leader.registry.prune keep } }
  | .receive kind payload => { s with leader := (Leader.receive kind payload s.leader).1 }
  | .submitRecovery proof => { s with leader := (Leader.submitRecovery proof s.leader).1 }
  | .drive d => { s with leader := Leader.drive d s.leader }
  | .conclude t => { s with leader := (Leader.conclude t s.leader).1 }
  | .change network clock stopped =>
    { s with leader := { s.leader with network, clock, stopped } }
  | .restart settings signer network clock =>
    { s with
      leader := (Leader.start settings signer s.leader.disk network clock).toOption.getD s.leader }

def run (s : Lineage) (events : List Event) : Lineage := events.foldl step s

variable {s : Lineage} {initial id : UInt64} {l : Leader}

/-- What holds in every run, if the highest number was `initial` at the start of the first. -/
structure Sound (initial : UInt64) (s : Lineage) : Prop where
  file : ∃ kept, s.leader.disk.loadLatest = .ok kept ∧ s.leader.latest = kept.getD 0
  source : s.leader.latest = initial ∨ s.leader.latest ∈ s.tried
  opened : ∀ id ∈ s.opened, id ≤ s.leader.latest
  ids : ∀ id ∈ s.leader.registry.ids, id ∈ s.tried
  ascending : s.leader.registry.Ascending
  book : s.leader.BookLoads

theorem sound_first {settings : LeaderSettings} {signer : Signer} {disk : Disk}
    {network : Network} {clock : Nat} (h : Leader.start settings signer disk network clock = .ok l) :
    (first l).Sound l.latest := by
  obtain ⟨rfl, hbook, hregistry, hlatest⟩ := Leader.start_eq_ok h
  refine ⟨hlatest, .inl rfl, nofun, ?_, ?_, Leader.ascending_of_loadBook hbook, l.book, hbook⟩
  · show ∀ id ∈ l.registry.ids, _
    rw [hregistry]
    exact nofun
  · show l.registry.Ascending
    rw [hregistry]
    exact .nil

theorem Sound.worked (hs : s.Sound initial) (h : s.leader.SameNumbers l) :
    Sound initial { s with leader := l } where
  file := by
    show ∃ kept, l.disk.loadLatest = _ ∧ l.latest = _
    rw [h.file, h.latest]
    exact hs.file
  source := by
    show l.latest = initial ∨ _
    rw [h.latest]
    exact hs.source
  opened := by
    show ∀ id ∈ s.opened, id ≤ l.latest
    rw [h.latest]
    exact hs.opened
  ids id hid := hs.ids id (h.ids.subset hid)
  ascending := hs.ascending.of_sublist h.ids
  book := h.book hs.book

theorem Sound.attempted (hs : s.Sound initial) {answer : Except NodeError Unit}
    (h : Leader.Opens id s.leader l answer) :
    (s.attempt id (l, answer.map fun _ => id)).Sound initial := by
  have hle : s.leader.latest ≤ l.latest := by
    obtain ⟨hsame, -⟩ | ⟨hlt, hraised, -⟩ := h.latest
    · rw [hsame]
      exact UInt64.le_refl _
    · rw [hraised]
      exact UInt64.le_of_lt hlt
  refine ⟨?_, ?_, ?_, ?_, h.ascending hs.ascending, h.book hs.book⟩
  · show ∃ kept, l.disk.loadLatest = _ ∧ l.latest = _
    obtain ⟨hsame, hload⟩ | ⟨-, hraised, hload⟩ := h.latest
    · rw [hsame, hload]
      exact hs.file
    · exact ⟨some id, hload, hraised⟩
  · show l.latest = initial ∨ l.latest ∈ id :: s.tried
    obtain ⟨hsame, -⟩ | ⟨-, hraised, -⟩ := h.latest
    · rw [hsame]
      exact hs.source.imp_right (List.mem_cons_of_mem id)
    · rw [hraised]
      exact .inr List.mem_cons_self
  · intro n hn
    rcases List.mem_append.mp hn with hnew | hold
    · cases answer with
      | error e => cases hnew
      | ok _ =>
        obtain rfl := List.mem_singleton.mp hnew
        exact h.done rfl
    · exact UInt64.le_trans (hs.opened n hold) hle
  · intro n hn
    rcases h.ids n hn with rfl | hold
    · exact List.mem_cons_self
    · exact List.mem_cons_of_mem id (hs.ids n hold)

/-- A leader can be started again at any time, and has the same highest number then. -/
theorem Sound.restart (hs : s.Sound initial) (settings : LeaderSettings) (signer : Signer)
    (network : Network) (clock : Nat) :
    ∃ l, Leader.start settings signer s.leader.disk network clock = .ok l ∧
      Sound initial { s with leader := l } := by
  obtain ⟨kept, hload, hkept⟩ := hs.file
  obtain ⟨-, book, hbook⟩ := hs.book
  obtain ⟨l, hstart, -⟩ := Leader.start_of_loads hbook hload settings signer network clock
  have hl := sound_first hstart
  obtain ⟨hdisk, -, -, kept', hload', hkept'⟩ := Leader.start_eq_ok hstart
  -- A new run begins without rounds, and with the highest number of the file.
  have hlatest : l.latest = s.leader.latest := by
    obtain rfl : kept = kept' := Except.ok.inj (hload.symm.trans hload')
    rw [hkept, hkept']
  refine ⟨l, hstart, hl.file, ?_, ?_, fun id hid => absurd (hl.ids id hid) List.not_mem_nil,
    hl.ascending, hl.book⟩
  · show l.latest = initial ∨ _
    rw [hlatest]
    exact hs.source
  · show ∀ id ∈ s.opened, id ≤ l.latest
    rw [hlatest]
    exact hs.opened

theorem Sound.step (hs : s.Sound initial) (e : Event) : (s.step e).Sound initial := by
  cases e with
  | openRound id eligible => exact hs.attempted (Leader.openRound_opens id eligible s.leader)
  | openNext =>
    cases hnext : s.leader.nextRoundId? with
    | none =>
      rw [Lineage.step, hnext]
      show Sound initial { s with leader := (Leader.openNext s.leader).1 }
      rw [Leader.openNext_none hnext]
      exact hs
    | some id =>
      rw [Lineage.step, hnext]
      show (s.attempt id (Leader.openNext s.leader)).Sound initial
      rw [Leader.openNext_eq hnext]
      exact hs.attempted (Leader.openRound_opens id s.leader.book.operators s.leader)
  | prune keep =>
    exact hs.worked ⟨rfl, rfl, s.leader.registry.ids_prune keep, fun hbook => hbook⟩
  | receive kind payload =>
    have hreceive : s.leader.SameNumbers (Leader.receive kind payload s.leader).1 :=
      Leader.KeepsNumbers.receive kind payload s.leader
    exact hs.worked hreceive
  | submitRecovery proof =>
    have hsubmit : s.leader.SameNumbers (Leader.submitRecovery proof s.leader).1 :=
      Leader.KeepsNumbers.submitRecovery proof s.leader
    exact hs.worked hsubmit
  | drive d => exact hs.worked (Leader.sameNumbers_drive d s.leader)
  | conclude t =>
    have hconclude : s.leader.SameNumbers (Leader.conclude t s.leader).1 :=
      Leader.KeepsNumbers.conclude t s.leader
    exact hs.worked hconclude
  | change network clock stopped => exact hs.worked (.of_eq rfl rfl rfl rfl)
  | restart settings signer network clock =>
    obtain ⟨l, hstart, hl⟩ := hs.restart settings signer network clock
    rw [Lineage.step, hstart]
    exact hl

theorem Sound.run (hs : s.Sound initial) (events : List Event) : (s.run events).Sound initial := by
  induction events generalizing s with
  | nil => exact hs
  | cons e rest ih => exact ih (hs.step e)

theorem Sound.lastRoundId_lt (hs : s.Sound initial) (hinitial : initial.toNat + 1 < UInt64.size)
    (htried : ∀ id ∈ s.tried, id.toNat + 1 < UInt64.size) :
    s.leader.lastRoundId.toNat + 1 < UInt64.size := by
  rw [Leader.lastRoundId_eq]
  split
  · -- The highest number is that of a round, which was tried in this run.
    cases hlatest : s.leader.registry.latest? with
    | none =>
      show (0 : UInt64).toNat + 1 < UInt64.size
      decide
    | some id => exact htried id (hs.ids id (Registry.mem_of_latest? hlatest))
  · rcases hs.source with hsame | hmem
    · rw [hsame]
      exact hinitial
    · exact htried _ hmem

/-- A leader is started in a directory, and rounds are opened, pruned and worked on through any
number of runs in it, while the disk may fail at any time. If no round is ever to be opened
under `2 ^ 64 - 1`, then there is always a next number, above those of all rounds that were
opened in any run, and opening the next round is never refused since its number is taken. A
further run can always be started. -/
theorem nextRoundId_fresh {settings : LeaderSettings} {signer : Signer} {disk : Disk}
    {network : Network} {clock : Nat} {events : List Event}
    (hstart : Leader.start settings signer disk network clock = .ok l)
    (hinitial : l.latest.toNat + 1 < UInt64.size)
    (htried : ∀ id ∈ ((first l).run events).tried, id.toNat + 1 < UInt64.size) :
    let s := (first l).run events
    (∃ next, s.leader.nextRoundId? = some next ∧ (∀ id ∈ s.opened, id < next) ∧
        ∀ id, (Leader.openNext s.leader).2 = .ok id → id = next) ∧
      (∀ cause, (Leader.openNext s.leader).2 ≠ .error (.round cause)) ∧
      ∀ (settings' : LeaderSettings) (signer' : Signer) (network' : Network) (clock' : Nat),
        ∃ l', Leader.start settings' signer' s.leader.disk network' clock' = .ok l' := by
  intro s
  have hs : s.Sound l.latest := (sound_first hstart).run events
  have hlt := hs.lastRoundId_lt hinitial htried
  obtain ⟨next, hnext, hlast⟩ := Leader.nextRoundId?_of_lt hlt
  refine ⟨⟨next, hnext, fun id hid => ?_, fun id hopened => ?_⟩,
    Leader.openNext_not_taken hs.ascending hlt, fun settings' signer' network' clock' => ?_⟩
  · have hle : id ≤ s.leader.lastRoundId :=
      UInt64.le_trans (hs.opened id hid) s.leader.latest_le_lastRoundId
    exact UInt64.lt_of_le_of_lt hle hlast
  · rw [Leader.openNext_eq hnext] at hopened
    cases hanswer : (Leader.openRound next s.leader.book.operators s.leader).2 with
    | ok _ =>
      rw [hanswer] at hopened
      exact (Except.ok.inj hopened).symm
    | error e =>
      rw [hanswer] at hopened
      cases hopened
  · obtain ⟨l', hstart', -⟩ := hs.restart settings' signer' network' clock'
    exact ⟨l', hstart'⟩

/-- The number of the first round cannot be flushed. A round of a higher number follows, and in
the next run one of a lower number. -/
theorem nextRoundId_fresh_unflushed :
    let settings : LeaderSettings := ⟨.ofSeconds 1, .ofSeconds 1, .ofSeconds 1, ⟨5, 3⟩⟩
    let signer : Signer := ⟨1, by decide, by decide⟩
    let events : List Event :=
      [.openNext, .openRound 7 [], .prune 0, .restart settings signer .empty 5, .openRound 2 []]
    ∃ l, Leader.start settings signer ⟨[], [some .flushing]⟩ .empty 0 = .ok l ∧
      ((first l).run events).tried = [2, 7, 1] ∧
      ∃ next, ((first l).run events).leader.nextRoundId? = some next ∧
        ∀ id ∈ ((first l).run events).opened, id < next := by
  intro settings signer events
  obtain ⟨l, hstart⟩ : ∃ l, Leader.start settings signer ⟨[], [some .flushing]⟩ .empty 0 = .ok l :=
    ⟨_, rfl⟩
  have hl := Except.ok.inj hstart
  have hinitial : l.latest.toNat + 1 < UInt64.size := by
    rw [← hl]
    decide
  have hevents : ((first l).run events).tried = [2, 7, 1] := by
    rw [← hl]
    rfl
  have htried : ∀ id ∈ ((first l).run events).tried, id.toNat + 1 < UInt64.size := by
    simp only [hevents, List.forall_mem_cons]
    exact ⟨by decide, by decide, by decide, nofun⟩
  obtain ⟨⟨next, hnext, hfresh, -⟩, -⟩ := nextRoundId_fresh hstart hinitial htried
  exact ⟨l, hstart, hevents, next, hnext, hfresh⟩

end Lineage

end Beacon
