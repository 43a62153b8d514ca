import Beacon.Proofs.Leader.Driving

/-
  One request at a time. A round lets several operators be asked at once; that only one is asked
  is up to its driver, which goes on to the next when the request was answered, or when it gave
  the operator up. Others may be at work between any two of its steps: secrets come in early or
  late, recoveries are handed in, recovery tasks end, other rounds have their drivers.

  The driver of a round is known by its key. There may be others of the same number beside it,
  of rounds that were pruned; they are at their last step and ask nobody.

  Whoever is asked is the operator that the driver deals with (`Attended.dealt`). The driver may
  leave an operator whose request was answered, since then its secret was taken in
  (`Attended.heard`): a secret that was taken in, and of which the driver is still to be told,
  is one of a resolved operator (`Sound.told`). All this is kept by every step of the driver
  (`Attended.goes`) and by whatever else happens (`Sound.calm`), so it holds in every course
  (`one_request_at_a_time`).
-/

namespace Beacon

/-- The operator whose answer a driver listens for at a stage. -/
def Stage.listens? : Stage → Option Address
  | .asking a | .awaiting a _ => some a
  | _ => none

theorem Stage.operator?_of_listens? {s : Stage} {a : Address} (h : s.listens? = some a) :
    s.operator? = some a := by
  cases s <;> first | exact h | cases h

namespace Leader

variable {l l' : Leader} {id id' : UInt64} {key : Nat} {a b : Address} {d : Driver}
  {s s' : Stage} {stage : Option Stage}

/-! ## Resolved operators -/

/-- The operator is resolved, unless the round is gone. -/
def Settled (l : Leader) (id : UInt64) (a : Address) : Prop :=
  ∀ r, l.registry.find? id = some r → ∃ s, r.standingOf a = some s ∧ s.isResolved = true

namespace Settled

theorem not_requested (h : l.Settled id a) : l.standingIn id a ≠ some .revealRequested := by
  intro ha
  obtain ⟨r, hr, ha⟩ := Option.bind_eq_some_iff.mp ha
  obtain ⟨s, hs, hresolved⟩ := h r hr
  rw [ha] at hs
  cases hs
  cases hresolved

theorem calm (h : l.Settled id a) (hc : Calm id l l') : l'.Settled id a := by
  intro r' hr'
  obtain ⟨r, ops, hr, -, rfl⟩ := hc.round r' hr'
  obtain ⟨s, hs, hresolved⟩ := h r hr
  exact ⟨s, Round.resolved_of_run hresolved hs ops, hresolved⟩

theorem performed {r : Round} (h : l.Settled id a) (hr : l.registry.find? id' = some r)
    (op : Round.Operation) : (l.withRound (r.perform op).1).Settled id a := by
  intro r' hr'
  rw [withRound, Registry.find?_replace, Option.map_eq_some_iff] at hr'
  obtain ⟨s, hs, rfl⟩ := hr'
  obtain ⟨stands, hstands, hresolved⟩ := h s hs
  split
  · rename_i hid
    rw [Round.id_perform, Registry.id_of_find? hr, Registry.id_of_find? hs] at hid
    subst hid
    obtain rfl := Option.some.inj (hr.symm.trans hs)
    exact ⟨stands, Round.resolved_of_run hresolved hstands [op], hresolved⟩
  · exact ⟨stands, hstands, hresolved⟩

theorem of_registry (h : l.Settled id a) (hsame : l'.registry = l.registry) :
    l'.Settled id a := by
  rw [Settled, hsame]
  exact h

/-- Whoever is resolved stays so whatever is done, the search for the next operator included. -/
theorem bears (id : UInt64) (a : Address) :
    Bears (fun _ => True) fun l l' => l.Settled id a → l'.Settled id a where
  refl _ h := h
  trans h h' := h' ∘ h
  operation op hr _ h := h.performed hr op
  saving _ _ _ _ h := h
  network _ _ h := h
  waking _ _ h := h
  waiters _ _ _ h := h
  recoveries _ _ h := h
  outcomes _ _ h := h
  pruning _ _ h r hr := h r (Registry.find?_prune hr)

theorem drive (h : l.Settled id a) (d : Driver) : (Leader.drive d l).Settled id a :=
  ((bears id a).step d (fun _ => trivial) l h).of_registry (registry_drive d l)

end Settled

theorem settled_of_acceptSecret {secret : Word} {before : Standing}
    (h : acceptSecret id a secret l = (l', .ok before)) : l'.Settled id a := by
  obtain ⟨l₁, _, hround, h⟩ := Acting.bind_eq_ok h
  obtain ⟨r, hr, haccept, rfl⟩ := onRound_eq_ok hround
  have hsettled : (l.withRound (r.acceptReveal a secret).1).Settled id a := by
    intro r' hr'
    obtain rfl := Option.some.inj ((find?_performed hr (.acceptReveal a secret)).symm.trans hr')
    exact ⟨.revealed, Round.standingOf_acceptReveal haccept, rfl⟩
  -- Keeping the record leaves the round alone.
  obtain ⟨l₂, _, hkeep, h⟩ := Acting.bind_eq_ok h
  cases h
  have hcalm := (bears_calm id).keepRecord id a (l.withRound (r.acceptReveal a secret).1)
  rw [hkeep] at hcalm
  exact hsettled.calm hcalm

/-! ## The driver of a round and its requests -/

/-- With its driver at a stage, a round has one operator asked at most, and that is the one the
driver deals with. If the request the driver listens for was answered, its operator is
resolved. -/
structure Attended (id : UInt64) (stage : Option Stage) (l : Leader) : Prop where
  reachable : ∀ r, l.registry.find? id = some r → r.Reachable
  one : ∀ a b, l.standingIn id a = some .revealRequested →
    l.standingIn id b = some .revealRequested → a = b
  dealt : ∀ s a, stage = some s → l.standingIn id a = some .revealRequested →
    s.operator? = some a
  heard : ∀ s a, stage = some s → s.listens? = some a → l.isAnswered id a = true →
    l.Settled id a

namespace Attended

theorem calm (h : Attended id stage l) (hc : Calm id l l') : Attended id stage l' where
  reachable r' hr' := by
    obtain ⟨r, ops, hr, -, rfl⟩ := hc.round r' hr'
    exact (h.reachable r hr).run ops
  one a b ha hb := h.one a b (hc.requested ha) (hc.requested hb)
  dealt s a hs ha := h.dealt s a hs (hc.requested ha)
  heard s a hs hlistens ha := (h.heard s a hs hlistens (hc.answered a ha)).calm hc

theorem dealing (h : Attended id (some s) l) (ha : l.standingIn id a = some .revealRequested) :
    s.operator? = some a :=
  h.dealt s a rfl ha

theorem ended (h : Attended id stage l) : Attended id none l :=
  ⟨h.reachable, h.one, nofun, nofun⟩

/-- The driver goes on to a stage at which it deals with whoever is still asked. -/
theorem enter (h : Attended id stage l)
    (hdealt : ∀ a, l.standingIn id a = some .revealRequested → s.operator? = some a)
    (hheard : ∀ a, s.listens? = some a → l.isAnswered id a = true → l.Settled id a) :
    Attended id (some s) l where
  reachable := h.reachable
  one := h.one
  dealt _ a hs := Option.some.inj hs ▸ hdealt a
  heard _ a hs := Option.some.inj hs ▸ hheard a

/-- With nobody asked the driver can go on to any stage at which it does not listen. -/
theorem idle (h : Attended id stage l) (hnobody : ∀ a, l.standingIn id a ≠ some .revealRequested)
    (hs : s.operator? = none) : Attended id (some s) l := by
  refine h.enter (fun a ha => absurd ha (hnobody a)) fun a ha => ?_
  rw [Stage.operator?_of_listens? ha] at hs
  cases hs

/-- When the driver is to choose nobody is asked, so the search leaves nobody asked but the
operator it finds. -/
theorem searched {r : Round} (h : Attended id (some .choosing) l)
    (hr : l.registry.find? id = some r)
    (ha : (l.withRound (r.perform .nextToRequest).1).standingIn id a = some .revealRequested) :
    r.nextToRequest.2 = some a := by
  rw [standingIn_of_find? (find?_performed hr .nextToRequest)] at ha
  have hshift := Round.shift_perform r .nextToRequest a
  rw [ha] at hshift
  rcases hshift.of_requested with hbefore | ⟨-, hnext⟩
  · cases h.dealing ((standingIn_of_find? hr).trans hbefore)
  · exact hnext

theorem search {r : Round} (h : Attended id (some .choosing) l)
    (hr : l.registry.find? id = some r) (hs : s.operator? = r.nextToRequest.2)
    (hlistens : s.listens? = none) :
    Attended id (some s) (l.withRound (r.perform .nextToRequest).1) where
  reachable r' hr' := by
    obtain rfl := Option.some.inj ((find?_performed hr .nextToRequest).symm.trans hr')
    exact (h.reachable r hr).perform .nextToRequest
  one a b ha hb := Option.some.inj ((h.searched hr ha).symm.trans (h.searched hr hb))
  dealt _ a hs' ha := Option.some.inj hs' ▸ hs.trans (h.searched hr ha)
  heard _ a hs' ha := by
    rw [← Option.some.inj hs', hlistens] at ha
    cases ha

theorem goes (h : Attended id (some s) l) (hgoes : Goes id l l' s s')
    (hcalm : s ≠ .choosing → Calm id l l') : Attended id (some s') l' := by
  by_cases hchoosing : s = .choosing
  · subst hchoosing
    cases hgoes with
    | elsewhere _ hne => exact absurd rfl hne
    | choose hr hl' hnext =>
      subst hl'
      exact h.search hr hnext.symm rfl
    | exhaust hr hl' hnone =>
      subst hl'
      exact h.search hr hnone.symm rfl
  have hc := hcalm hchoosing
  have h' := h.calm hc
  cases hgoes with
  | elsewhere hs _ _ hs' =>
    refine h'.idle (fun a ha => ?_) hs'
    rw [h'.dealing ha] at hs
    cases hs
  | choose => exact absurd rfl hchoosing
  | exhaust => exact absurd rfl hchoosing
  | call hanswered =>
    refine h'.enter (fun b hb => h'.dealing hb) fun b hb hb' => ?_
    cases hb
    rw [hanswered] at hb'
    cases hb'
  | send => exact h'.enter (fun b hb => h'.dealing hb) fun b hb => h'.heard _ b rfl hb
  | lose => exact h'.enter (fun b hb => h'.dealing hb) nofun
  | wait => exact h'
  | @hear a deadline hanswered =>
    have hsettled := (h.heard _ a rfl rfl hanswered).calm hc
    refine h'.idle (fun b hb => ?_) rfl
    cases h'.dealing hb
    exact hsettled.not_requested hb
  | expire => exact h'.enter (fun b hb => h'.dealing hb) nofun
  | giveUp hstands hs' =>
    refine h'.idle (fun b hb => ?_) hs'
    cases h'.dealing hb
    exact hstands hb

theorem withDrivers (h : Attended id stage l) (drivers : List Driver) :
    Attended id stage { l with drivers } :=
  ⟨h.reachable, h.one, h.dealt, h.heard⟩

theorem drive (h : Attended id (l.stageOf d.key) l) (hround : d.round = id)
    (hd : l.drivers.find? (·.key = d.key) = some d) :
    Attended id ((Leader.drive d l).stageOf d.key) (Leader.drive d l) := by
  have hstage : l.stageOf d.key = some d.stage := by rw [stageOf, hd, Option.map_some]
  rcases hstep : step d l with ⟨l', result⟩
  by_cases hgoes : ∃ next, result = .ok (some next)
  · obtain ⟨next, rfl⟩ := hgoes
    obtain ⟨hsame, hgoes⟩ := step_goes hstep
    have hcalm : d.stage ≠ .choosing → Calm id l l' := by
      intro hchoosing
      have hc := (bears_calm id).step d (fun h => absurd h hchoosing) l
      rw [hstep] at hc
      exact hc
    have hstage' : l'.stageOf d.key = some d.stage := by
      have hstands := bears_stands.step d (fun _ => trivial) l
      rw [hstep] at hstands
      exact (hstands.stageOf d.key).trans hstage
    rw [drive_of_goes hstep, stageOf_replaced hsame, if_pos rfl, hstage', Option.map_some]
    rw [hstage] at h
    rw [hround] at hgoes
    exact (h.goes hgoes hcalm).withDrivers _
  · have hended := not_exists.mp hgoes
    have hc := calm_of_ended hstep hended
    rw [hround] at hc
    rw [drive_of_ended hstep hended, stageOf_removed, if_pos rfl]
    exact (h.calm hc).ended.withDrivers _

end Attended

/-! ## Between the steps of a driver -/

/-- A driver that is told of a secret finds the request to its operator answered, and no
other. -/
theorem answered_of_noteSecret {before : Standing}
    (h : (noteSecret id' a before l).isAnswered id b = true) :
    l.isAnswered id b = true ∨ id' = id ∧ a = b := by
  unfold noteSecret at h
  split at h
  · obtain ⟨w, hw, hanswered⟩ := List.any_eq_true.mp h
    obtain ⟨v, hv, rfl⟩ := List.mem_map.mp hw
    split at hanswered
    · rename_i hown
      simp only [Bool.and_eq_true, decide_eq_true_eq] at hanswered
      exact .inr ⟨hown.1.symm.trans hanswered.1.1, hown.2.symm.trans hanswered.1.2⟩
    · exact .inl (List.any_eq_true.mpr ⟨v, hv, hanswered⟩)
  · exact .inl h

theorem stands_noteSecret (id : UInt64) (a : Address) (before : Standing) (l : Leader) :
    Stands l (noteSecret id a before l) := by
  have hpoked := bears_stands.waking l id
  unfold noteSecret
  split <;> exact ⟨hpoked.started, hpoked.places⟩

theorem registry_noteSecret (id' : UInt64) (a : Address) (before : Standing) (l : Leader) :
    (noteSecret id' a before l).registry = l.registry := by
  unfold noteSecret
  split
  · rfl
  · rfl

/-- After its search the driver leaves the round as the search left it. -/
theorem standingIn_of_search {r : Round} (hstage : d.stage = .choosing)
    (hr : l.registry.find? d.round = some r) (hnext : r.nextToRequest.2 = some a) :
    (Leader.drive d l).standingIn d.round a = r.nextToRequest.1.standingOf a := by
  have hsearch : onRound d.round (fun r => (r.nextToRequest.1, .ok r.nextToRequest.2)) l =
      (l.withRound r.nextToRequest.1, .ok (some a)) := by
    rw [onRound_of_find? hr, hnext]
    rfl
  have hstep : Leader.step d l =
      (l.withRound r.nextToRequest.1, .ok (some (d.goTo (.calling a)))) := by
    rw [Leader.step, Acting.bind_of_ok (Acting.state_apply l), hstage]
    dsimp only
    rw [Acting.bind_of_ok hsearch]
    rfl
  rw [drive_of_goes hstep]
  exact standingIn_of_find? (find?_performed hr .nextToRequest)

end Leader

namespace Round

variable {a b : Address}

/-- Two operators commit, both disclose their first stages, and the reveals begin. -/
def discloseBoth (a b : Address) (cvs cos : Word) : List Operation :=
  [.acceptCommit a cvs Word.zero, .acceptCommit b cvs Word.zero, .closeCommits, .acceptCos a cos,
   .acceptCos b cos, .closeCos, .installOrder none [a, b], .beginRevealing]

theorem run_discloseBoth {cvs cos : Word} (hab : a ≠ b) (hcos : cosOpens cvs cos = true) :
    (∀ p ∈ ((start 1 [a, b]).run (discloseBoth a b cvs cos)).records, p.standing = .committed) ∧
      ((start 1 [a, b]).run (discloseBoth a b cvs cos)).nextToRequest.2 = some a ∧
      ((start 1 [a, b]).run (discloseBoth a b cvs cos)).nextToRequest.1.standingOf a =
        some .revealRequested := by
  simp [discloseBoth, run, perform, answer, start, acceptCommit, isEligible, find?, closeCommits,
    Beacon.merkleRoot, MerkleTree.ofWords, Except.map, acceptCos, modify, closeCos, Missing.mark,
    installOrder, disclosed, Covers, beginRevealing, nextToRequest, requestFirst, standingOf,
    setStanding, hab, hab.symm, hcos]

theorem exists_firstToRequest (hab : a ≠ b) : ∃ r : Round, r.Reachable ∧ r.id = 1 ∧
    (∀ p ∈ r.records, p.standing = .committed) ∧ r.nextToRequest.2 = some a ∧
      r.nextToRequest.1.standingOf a = some .revealRequested :=
  ⟨_, reachable_run 1 [a, b] _, run_id (reachable_run 1 [a, b] []) _,
    run_discloseBoth hab (beq_self_eq_true (secondStage Word.zero) :)⟩

end Round

/-! ## Courses -/

/-- What is done at a leader between two moments at which others may go on, the steps of drivers
and the taking in of secrets apart. The network, the clock and whether the leader is stopped are
up to others. -/
inductive Work where
  | acceptRecovery (proof : Recovery)
  | callOff (id : UInt64) (operator : Address)
  | fault (id : UInt64) (operator : Address)
  | conclude (t : RecoveryTask)
  | commit (id : UInt64) (operator : Address) (cvs sealed : Word)
  | disclose (id : UInt64) (operator : Address) (cos : Word)
  | register (operator : Address) (peer : String)
  | openRound (id : UInt64) (eligible : List Address)
  | prune (keep : Nat)
  | change (network : Network) (clock : Nat) (stopped : Bool)

open Leader

def Work.act : Work → Acting Leader Unit
  | .acceptRecovery proof => do let _ ← Leader.acceptRecovery proof
  | .callOff id operator => Acting.change fun l => poke id (cancelRecovery id operator l)
  | .fault id operator => Leader.fault id operator
  | .conclude t => Leader.conclude t
  | .commit id operator cvs sealed => do let _ ← Leader.commit id operator cvs sealed
  | .disclose id operator cos => do let _ ← Leader.disclose id operator cos
  | .register operator peer => Leader.register operator peer
  | .openRound id eligible => Leader.openRound id eligible
  | .prune keep => Acting.change fun l => { l with registry := l.registry.prune keep }
  | .change network clock stopped => Acting.change fun l => { l with network, clock, stopped }

/-- A frame bears with all this work if it bears with registrations, the opening of rounds and
what is up to others. -/
theorem Work.within {w : Work} {searched : UInt64 → Prop} {R : Leader → Leader → Prop}
    (h : Bears searched R)
    (hregister : ∀ operator peer, Acting.Within R (Leader.register operator peer))
    (hopen : ∀ id eligible, w = .openRound id eligible → Acting.Within R (Leader.openRound id eligible))
    (hchange : ∀ (l : Leader) network clock stopped, R l { l with network, clock, stopped }) :
    Acting.Within R w.act := by
  cases w with
  | acceptRecovery proof => exact h.bind (h.acceptRecovery proof) fun _ => h.answer ()
  | callOff id operator => exact h.callOff id operator
  | fault id operator => exact h.fault id operator
  | conclude t => exact h.conclude t
  | commit id operator cvs sealed =>
    exact h.bind (h.commit id operator cvs sealed) fun _ => h.answer ()
  | disclose id operator cos => exact h.bind (h.disclose id operator cos) fun _ => h.answer ()
  | register operator peer => exact hregister operator peer
  | openRound id eligible => exact hopen id eligible rfl
  | prune keep => exact fun l => h.pruning l keep
  | change network clock stopped => exact fun l => hchange l network clock stopped

theorem Work.calm {w : Work} {id : UInt64} (hopen : ∀ eligible, w ≠ .openRound id eligible) :
    Acting.Within (Calm id) w.act := by
  refine Work.within (bears_calm id) (fun _ peer l => ?_) (fun id' eligible hw => ?_)
    fun _ _ _ _ => .of_eq rfl rfl
  · obtain ⟨-, hwaiters, hregistry⟩ := within_register_rest peer l
    exact .of_eq hwaiters hregistry
  · refine calm_openRound ?_ eligible
    rintro rfl
    exact hopen eligible hw

theorem Work.unmoved {w : Work} {id : UInt64} (key : Nat)
    (hopen : ∀ eligible, w ≠ .openRound id eligible) :
    Acting.Within (Unmoved id key) w.act := by
  have h := bears_unmoved id key
  have hrest {l l' : Leader} (hstarted : l'.started = l.started) (hdrivers : l'.drivers = l.drivers) :
      Unmoved id key l l' := Stands.unmoved ⟨hstarted, by rw [hdrivers]⟩
  refine Work.within h (fun _ peer l => (within_register_rest peer l).1.unmoved)
    (fun id' eligible hw => h.openRound id' eligible (fun _ => hrest rfl rfl)
      (fun _ _ _ => hrest rfl rfl) (unmoved_startDriver ?_)) fun _ _ _ _ => hrest rfl rfl
  rintro rfl
  exact hopen eligible hw

theorem Work.keyed (w : Work) : Acting.Within (fun l l' => l.Keyed → l'.Keyed) w.act :=
  Work.within bears_keyed (fun _ peer l => (within_register_rest peer l).1.keyed)
    (fun id eligible _ => bears_keyed.openRound id eligible (fun _ h => ⟨h.sorted, h.below⟩)
      (fun _ _ _ h => ⟨h.sorted, h.below⟩) fun _ h => h.startDriver id)
    fun _ _ _ _ h => ⟨h.sorted, h.below⟩

/-- A leader at work, with the secrets that were taken in and of which it is still to tell the
drivers: the round, the operator, and where the operator stood. -/
structure Course where
  leader : Leader
  untold : List (UInt64 × Address × Standing)

namespace Course

/-- What happens at a leader. A secret comes in in two parts: it is taken in, and then the driver
is told of it. -/
inductive Event where
  | drive (key : Nat)
  | take (id : UInt64) (operator : Address) (secret : Word)
  | tell (place : Nat)
  | work (w : Work)

/-- A driver takes a step, if there is one of that key. -/
def drive (s : Course) (key : Nat) : Course :=
  match s.leader.drivers.find? (·.key = key) with
  | some d => { s with leader := Leader.drive d s.leader }
  | none => s

def take (s : Course) (id : UInt64) (operator : Address) (secret : Word) : Course :=
  match acceptSecret id operator secret s.leader with
  | (l, .ok before) => { leader := l, untold := (id, operator, before) :: s.untold }
  | (l, .error _) => { s with leader := l }

def tell (s : Course) (place : Nat) : Course :=
  match s.untold[place]? with
  | some (id, operator, before) =>
    { leader := noteSecret id operator before s.leader, untold := s.untold.eraseIdx place }
  | none => s

def step (s : Course) : Event → Course
  | .drive key => s.drive key
  | .take id operator secret => s.take id operator secret
  | .tell place => s.tell place
  | .work w => { s with leader := (w.act s.leader).1 }

def run (s : Course) (events : List Event) : Course := events.foldl step s

variable {s : Course} {id : UInt64} {key : Nat} {a : Address} {l l' : Leader} {d : Driver}
  {events : List Event}

theorem keyed_run (h : s.leader.Keyed) (events : List Event) : (s.run events).leader.Keyed := by
  induction events generalizing s with
  | nil => exact h
  | cons e rest ih =>
    refine ih ?_
    cases e with
    | drive key =>
      show (s.drive key).leader.Keyed
      unfold drive
      split
      · rename_i d hd
        exact h.drive (List.mem_of_find?_eq_some hd)
      · exact h
    | take id operator secret =>
      have hk := bears_keyed.acceptSecret id operator secret s.leader h
      show (s.take id operator secret).leader.Keyed
      unfold take
      split <;> rename_i haccept <;> rw [haccept] at hk <;> exact hk
    | tell place =>
      show (s.tell place).leader.Keyed
      unfold tell
      split
      · exact (stands_noteSecret _ _ _ s.leader).keyed h
      · exact h
    | work w => exact w.keyed s.leader h

/-- What holds of a round in every course. -/
structure Sound (id : UInt64) (key : Nat) (s : Course) : Prop where
  charge : InCharge id key s.leader
  attended : Attended id (s.leader.stageOf key) s.leader
  told : ∀ n ∈ s.untold, n.1 = id → s.leader.Settled id n.2.1

theorem Sound.calm (h : s.Sound id key) (hc : Calm id s.leader l)
    (hu : Unmoved id key s.leader l) : Sound id key { s with leader := l } := by
  obtain ⟨hcharge, hstage⟩ := hu h.charge
  refine ⟨hcharge, ?_, fun n hn hid => (h.told n hn hid).calm hc⟩
  show Attended id (l.stageOf key) l
  rw [hstage]
  exact h.attended.calm hc

/-- A driver that is to choose an operator is not one of a round that another is in charge of. -/
theorem Sound.not_searching (h : s.Sound id key) (hd : d ∈ s.leader.drivers) (hne : d.key ≠ key)
    (hstage : d.stage = .choosing) : d.round ≠ id := by
  intro hround
  rcases (h.charge.yielding d hd).2 hround with hkey | hlast
  · exact hne hkey
  · rw [hstage] at hlast
    cases hlast

theorem Sound.drive (h : s.Sound id key) (key' : Nat) : (s.drive key').Sound id key := by
  unfold Course.drive
  split
  · rename_i d hd
    have hmem := List.mem_of_find?_eq_some hd
    obtain rfl := Driver.key_of_find? hd
    by_cases hkey : d.key = key
    · subst hkey
      have hround := (h.charge.yielding d hmem).1 rfl
      exact ⟨h.charge.drive hmem, h.attended.drive hround hd,
        fun n hn hid => (h.told n hn hid).drive d⟩
    · refine h.calm (calm_drive (h.not_searching hmem hkey) s.leader) fun hc => ?_
      exact ⟨hc.drive hmem, stageOf_drive (Ne.symm hkey)⟩
  · exact h

theorem Sound.take (h : s.Sound id key) (id' : UInt64) (operator : Address) (secret : Word) :
    (s.take id' operator secret).Sound id key := by
  have hc := (bears_calm id).acceptSecret id' operator secret s.leader
  have hu := (bears_unmoved id key).acceptSecret id' operator secret s.leader
  unfold Course.take
  rcases haccept : acceptSecret id' operator secret s.leader with ⟨l, e | before⟩ <;>
    rw [haccept] at hc hu
  · exact h.calm hc hu
  · have hcalm := h.calm hc hu
    refine ⟨hcalm.charge, hcalm.attended, fun n hn hid => ?_⟩
    rcases List.mem_cons.mp hn with rfl | hn
    · subst hid
      exact settled_of_acceptSecret haccept
    · exact hcalm.told n hn hid

/-- The driver may be told of a secret, since its operator is resolved. -/
theorem Sound.tell (h : s.Sound id key) (place : Nat) : (s.tell place).Sound id key := by
  unfold Course.tell
  split
  · rename_i id' operator before hplace
    have hmem := List.mem_of_getElem? hplace
    have hregistry := registry_noteSecret id' operator before s.leader
    have hstands := stands_noteSecret id' operator before s.leader
    refine ⟨(hstands.unmoved h.charge).1, ⟨?_, ?_, ?_, ?_⟩, fun n hn hid =>
      (h.told n (List.mem_of_mem_eraseIdx hn) hid).of_registry hregistry⟩
    · rw [hregistry]
      exact h.attended.reachable
    · simp only [standingIn, hregistry]
      exact h.attended.one
    · simp only [standingIn, hregistry, hstands.stageOf]
      exact h.attended.dealt
    · intro stage a hstage hlistens hanswered
      rw [hstands.stageOf] at hstage
      rcases answered_of_noteSecret hanswered with hbefore | ⟨rfl, rfl⟩
      · exact (h.attended.heard stage a hstage hlistens hbefore).of_registry hregistry
      · exact (h.told _ hmem rfl).of_registry hregistry
  · exact h

theorem Sound.step (h : s.Sound id key) {e : Event}
    (hopen : ∀ eligible, e ≠ .work (.openRound id eligible)) : (s.step e).Sound id key := by
  cases e with
  | drive key' => exact h.drive key'
  | take id' operator secret => exact h.take id' operator secret
  | tell place => exact h.tell place
  | work w =>
    have hw : ∀ eligible, w ≠ .openRound id eligible := fun eligible hw => hopen eligible (hw ▸ rfl)
    exact h.calm (Work.calm hw s.leader) (Work.unmoved key hw s.leader)

theorem Sound.run (h : s.Sound id key)
    (hopen : ∀ eligible, .work (.openRound id eligible) ∉ events) :
    (s.run events).Sound id key := by
  induction events generalizing s with
  | nil => exact h
  | cons e rest ih =>
    refine ih (h.step fun eligible he => ?_) fun eligible he => ?_
    · exact hopen eligible (he ▸ List.mem_cons_self)
    · exact hopen eligible (List.mem_cons_of_mem e he)

/-! ## Who is asked -/

theorem requested_of_drive (hsearch : d.stage = .choosing → d.round ≠ id)
    (ha : (Leader.drive d l).standingIn id a = some .revealRequested) :
    l.standingIn id a = some .revealRequested := by
  have hc := (bears_calm id).step d hsearch l
  rw [standingIn, registry_drive] at ha
  exact hc.requested ha

/-- Only the driver of a round asks an operator of it, when it is to choose one. -/
theorem Sound.asked_by_driver (h : s.Sound id key) {e : Event}
    (hopen : ∀ eligible, e ≠ .work (.openRound id eligible))
    (hafter : (s.step e).leader.standingIn id a = some .revealRequested)
    (hbefore : s.leader.standingIn id a ≠ some .revealRequested) :
    e = .drive key ∧ ∃ d, s.leader.drivers.find? (·.key = key) = some d ∧ d.stage = .choosing := by
  cases e with
  | drive key' =>
    simp only [Course.step, Course.drive] at hafter
    split at hafter
    · rename_i d hd
      have hmem := List.mem_of_find?_eq_some hd
      obtain rfl := Driver.key_of_find? hd
      by_cases hstage : d.stage = .choosing
      · by_cases hkey : d.key = key
        · subst hkey
          exact ⟨rfl, d, hd, hstage⟩
        · exact absurd (requested_of_drive (h.not_searching hmem hkey) hafter) hbefore
      · exact absurd (requested_of_drive (fun h => absurd h hstage) hafter) hbefore
    · exact absurd hafter hbefore
  | take id' operator secret =>
    have hc := (bears_calm id).acceptSecret id' operator secret s.leader
    refine absurd (hc.requested ?_) hbefore
    simp only [Course.step, Course.take] at hafter
    split at hafter <;> rename_i haccept <;> rw [haccept] <;> exact hafter
  | tell place =>
    refine absurd ?_ hbefore
    simp only [Course.step, Course.tell] at hafter
    split at hafter
    · rw [standingIn, registry_noteSecret] at hafter
      exact hafter
    · exact hafter
  | work w =>
    have hc := Work.calm (fun eligible hw => hopen eligible (hw ▸ rfl)) s.leader
    exact absurd (hc.requested hafter) hbefore

/-- In a round nobody is asked yet: its driver, if it is still there, deals with no operator,
others of its number are at their last step, and none is to be told of any secret of the
round. -/
structure Unasked (id : UInt64) (key : Nat) (s : Course) : Prop where
  reachable : ∀ r, s.leader.registry.find? id = some r → r.Reachable
  nobody : ∀ r, s.leader.registry.find? id = some r → ∀ p ∈ r.records,
    p.standing ≠ .revealRequested
  started : key < s.leader.started
  driver : ∀ d ∈ s.leader.drivers, d.key = key → d.round = id ∧ d.stage.operator? = none
  others : ∀ d ∈ s.leader.drivers, d.round = id → d.key = key ∨ d.stage = .pruning
  untold : ∀ n ∈ s.untold, n.1 ≠ id

structure OneRequest (id : UInt64) (key : Nat) (s : Course) : Prop where
  /-- One operator of the round is asked for its secret at most. -/
  one : ∀ r, s.leader.registry.find? id = some r → ∀ p ∈ r.records, ∀ q ∈ r.records,
    p.standing = .revealRequested → q.standing = .revealRequested → p = q
  /-- It is the operator that the driver deals with. -/
  dealt : ∀ r d, s.leader.registry.find? id = some r →
    s.leader.drivers.find? (·.key = key) = some d → ∀ p ∈ r.records,
      p.standing = .revealRequested → d.stage.operator? = some p.operator
  /-- When the driver is to choose the next operator nobody is asked. -/
  chooses : ∀ r d, s.leader.registry.find? id = some r →
    s.leader.drivers.find? (·.key = key) = some d → d.stage = .choosing → ∀ p ∈ r.records,
      p.standing ≠ .revealRequested
  /-- Nobody comes to be asked but by the driver, when it is to choose. -/
  asks : ∀ e a, (∀ eligible, e ≠ .work (.openRound id eligible)) →
    (s.step e).leader.standingIn id a = some .revealRequested →
    s.leader.standingIn id a ≠ some .revealRequested →
      e = .drive key ∧ ∃ d, s.leader.drivers.find? (·.key = key) = some d ∧ d.stage = .choosing
  /-- The driver is one of the round, and any other one of its number is at its last step. -/
  alone : ∀ d ∈ s.leader.drivers, (d.key = key → d.round = id) ∧
    (d.round = id → d.key = key ∨ d.stage = .pruning)

theorem Unasked.sound (h : s.Unasked id key) : s.Sound id key := by
  have hnobody : ∀ a, s.leader.standingIn id a ≠ some .revealRequested := by
    intro a ha
    obtain ⟨r, hr, ha⟩ := Option.bind_eq_some_iff.mp ha
    obtain ⟨p, hf, hstands⟩ := Round.standingOf_eq_some.mp ha
    exact h.nobody r hr p (Round.mem_of_find? hf).1 hstands
  have hdriver : ∀ stage, s.leader.stageOf key = some stage → stage.operator? = none := by
    intro stage hstage
    obtain ⟨d, hd, rfl⟩ := Option.map_eq_some_iff.mp hstage
    exact (h.driver d (List.mem_of_find?_eq_some hd) (Driver.key_of_find? hd)).2
  refine ⟨⟨h.started, fun d hd => ⟨fun hkey => (h.driver d hd hkey).1, h.others d hd⟩⟩,
    ⟨h.reachable, fun a _ ha => absurd ha (hnobody a), fun _ a _ ha => absurd ha (hnobody a),
    fun stage a hstage hlistens => ?_⟩, fun n hn hid => absurd hid (h.untold n hn)⟩
  have hoperator := Stage.operator?_of_listens? hlistens
  rw [hdriver stage hstage] at hoperator
  cases hoperator

theorem Sound.oneRequest (h : s.Sound id key) : s.OneRequest id key := by
  have hasked : ∀ r, s.leader.registry.find? id = some r → ∀ p ∈ r.records,
      p.standing = .revealRequested →
        s.leader.standingIn id p.operator = some .revealRequested := by
    intro r hr p hp hstands
    have hf := (Round.find?_eq_some (h.attended.reachable r hr).nodup).mpr ⟨hp, rfl⟩
    rw [standingIn_of_find? hr, Round.standingOf_of_find? hf, hstands]
  have hdealt : ∀ r d, s.leader.registry.find? id = some r →
      s.leader.drivers.find? (·.key = key) = some d → ∀ p ∈ r.records,
        p.standing = .revealRequested → d.stage.operator? = some p.operator := by
    intro r d hr hd p hp hstands
    refine h.attended.dealt d.stage p.operator ?_ (hasked r hr p hp hstands)
    rw [stageOf, hd, Option.map_some]
  refine ⟨fun r hr p hp q hq hstands hstands' => ?_, hdealt, ?_, fun e a => h.asked_by_driver,
    h.charge.yielding⟩
  · have hsame := h.attended.one p.operator q.operator (hasked r hr p hp hstands)
      (hasked r hr q hq hstands')
    exact List.inj_on_of_nodup_map (h.attended.reachable r hr).nodup hp hq hsame
  · intro r d hr hd hchoosing p hp hstands
    have hoperator := hdealt r d hr hd p hp hstands
    rw [hchoosing] at hoperator
    cases hoperator

/-- A round that was just opened, its driver being the last that was started. -/
theorem unasked_of_openRound {eligible : List Address} {l l' : Leader}
    {untold : List (UInt64 × Address × Standing)} (hkeyed : l.Keyed)
    (hdrivers : ∀ d ∈ l.drivers, d.round = id → d.stage = .pruning)
    (huntold : ∀ n ∈ untold, n.1 ≠ id) (h : Leader.openRound id eligible l = (l', .ok ())) :
    Unasked id l.started ⟨l', untold⟩ := by
  obtain ⟨hnew, notice, disk, latest, rfl⟩ := openRound_eq_ok h
  have hround : (⟨Registry.insertRound (.start id eligible) l.registry.rounds⟩ : Registry).find? id =
      some (.start id eligible) :=
    Registry.find?_insertRound (r := .start id eligible) (Registry.find?_eq_none_iff.mpr hnew)
  refine ⟨fun r hr => ?_, fun r hr p hp => ?_, Nat.lt_succ_self _, fun d hd hkey => ?_,
    fun d hd hid => ?_, huntold⟩
  · obtain rfl := Option.some.inj (hround.symm.trans hr)
    exact Round.reachable_run id eligible []
  · obtain rfl := Option.some.inj (hround.symm.trans hr)
    cases hp
  · rcases mem_startDriver hd with ⟨e, he, hplace⟩ | ⟨-, hfresh⟩
    · have hold : e.key = d.key := congrArg (·.1) hplace
      exact absurd (hkeyed.below e he) (by omega)
    · exact hfresh
  · rcases mem_startDriver hd with ⟨e, he, hplace⟩ | ⟨hkey, -⟩
    · have hlast := hdrivers e he ((congrArg (·.2.1) hplace).trans hid)
      exact .inr ((congrArg (·.2.2) hplace).symm.trans hlast)
    · exact .inl hkey

/-- A leader with one round, whose driver is about to choose the first operator to ask. -/
def aboutToAsk (r : Round) : Course where
  leader :=
    { settings := ⟨.ofSeconds 1, .ofSeconds 1, .ofSeconds 1, ⟨5, 3⟩⟩
      signer := ⟨1, by decide, by decide⟩
      disk := ⟨[], []⟩
      network := .empty
      registry := ⟨[r]⟩
      book := []
      latest := r.id
      started := 1
      drivers := [⟨0, r.id, .choosing, true, false⟩]
      waiters := []
      recoveries := []
      outcomes := []
      stopped := false
      clock := 0 }
  untold := []

theorem find?_aboutToAsk (r : Round) : (aboutToAsk r).leader.registry.find? r.id = some r :=
  List.find?_cons_of_pos (decide_eq_true rfl)

theorem unasked_aboutToAsk {r : Round} (hr : r.Reachable)
    (hnobody : ∀ p ∈ r.records, p.standing ≠ .revealRequested) : (aboutToAsk r).Unasked r.id 0 := by
  refine ⟨fun r' hr' => ?_, fun r' hr' => ?_, Nat.one_pos, fun d hd _ => ?_, fun d hd _ => ?_,
    nofun⟩
  · rw [find?_aboutToAsk] at hr'
    exact Option.some.inj hr' ▸ hr
  · rw [find?_aboutToAsk] at hr'
    exact Option.some.inj hr' ▸ hnobody
  · rw [List.mem_singleton.mp hd]
    exact ⟨rfl, rfl⟩
  · rw [List.mem_singleton.mp hd]
    exact .inl rfl

theorem run_aboutToAsk (r : Round) : ((aboutToAsk r).run [.drive 0]).leader =
    Leader.drive ⟨0, r.id, .choosing, true, false⟩ (aboutToAsk r).leader := by
  show ((aboutToAsk r).drive 0).leader = _
  have hfind : (aboutToAsk r).leader.drivers.find? (·.key = 0) =
      some ⟨0, r.id, .choosing, true, false⟩ := List.find?_cons_of_pos (decide_eq_true rfl)
  rw [drive, hfind]

/-- From a round in which nobody is asked yet, such as one that was just opened, every course
leads to one request at a time. -/
theorem one_request_at_a_time (h : s.Unasked id key)
    (honce : ∀ eligible, .work (.openRound id eligible) ∉ events) :
    (s.run events).OneRequest id key :=
  (h.sound.run honce).oneRequest

/-- The driver of a round with two operators chooses the first of them. -/
theorem one_request_at_a_time_two :
    ∃ r : Round, (aboutToAsk r).Unasked 1 0 ∧
      (∀ eligible, .work (.openRound 1 eligible) ∉ [Event.drive 0]) ∧
      ((aboutToAsk r).run [.drive 0]).leader.standingIn 1 ⟨.ofNat 20 1⟩ = some .revealRequested ∧
      ((aboutToAsk r).run [.drive 0]).OneRequest 1 0 := by
  have hab : (⟨.ofNat 20 1⟩ : Address) ≠ ⟨.ofNat 20 2⟩ := by decide
  obtain ⟨r, hreachable, hid, hcommitted, hnext, hasked⟩ := Round.exists_firstToRequest hab
  have hnobody : ∀ p ∈ r.records, p.standing ≠ .revealRequested := by
    intro p hp
    rw [hcommitted p hp]
    nofun
  have hunasked := hid ▸ unasked_aboutToAsk hreachable hnobody
  have honce : ∀ eligible, .work (.openRound 1 eligible) ∉ [Event.drive 0] := by simp
  refine ⟨r, hunasked, honce, ?_, one_request_at_a_time hunasked honce⟩
  rw [← hid, run_aboutToAsk]
  exact (standingIn_of_search rfl (find?_aboutToAsk r) hnext).trans hasked

end Course

end Beacon
