import Beacon.Proofs.Leader.Closing
import Beacon.Proofs.Leader.Work
import Beacon.Proofs.Round.Registry
import Beacon.Proofs.Round.Shift

/-
  How the driver of a round goes on. All work leaves a round as operations other than the search
  for the next operator leave it, and answers no request of the round (`Calm`), with two
  exceptions: the driver of the round searches at one of its stages, and a secret that was taken
  in answers a request.

  What the driver does at each stage, and where it goes, is `Goes`. It deals with one operator
  from the search that names it until the operator has answered or was given up.
-/

namespace Beacon

namespace Round

variable {r : Round} {a : Address} {ops : List Operation}

/-- Without a search for the next operator nobody comes to be asked. -/
theorem requested_of_run (hops : .nextToRequest ∉ ops)
    (h : (r.run ops).standingOf a = some .revealRequested) :
    r.standingOf a = some .revealRequested := by
  induction ops generalizing r with
  | nil => exact h
  | cons op ops ih =>
    obtain ⟨hop, hops⟩ := not_or.mp (mt List.mem_cons.mpr hops)
    have hshift := shift_perform r op a
    rw [ih hops h] at hshift
    exact hshift.of_requested.resolve_right fun hnext => hop hnext.1.symm

theorem resolved_of_run {s : Standing} (hs : s.isResolved = true) (h : r.standingOf a = some s)
    (ops : List Operation) : (r.run ops).standingOf a = some s := by
  induction ops generalizing r with
  | nil => exact h
  | cons op ops ih =>
    have hshift := shift_perform r op a
    rw [h] at hshift
    exact ih (hshift.of_resolved hs)

theorem standingOf_markTimedOut {marked : Bool} (h : (r.markTimedOut a).2 = .ok marked) :
    (r.markTimedOut a).1.standingOf a ≠ some .revealRequested := by
  cases hf : r.find? a with
  | none => simp only [markTimedOut, hf, reduceCtorEq] at h
  | some p =>
    by_cases hstands : p.standing = .revealRequested
    · simp only [markTimedOut, hf, hstands, ne_eq, not_true_eq_false, if_false]
      rw [setStanding, standingOf_modify (by exact fun _ => rfl), hf, Option.map_some, if_pos rfl]
      intro hs
      cases hs
    · simp only [markTimedOut, hf, hstands, ne_eq, not_false_eq_true, if_true]
      rw [standingOf_of_find? hf]
      exact fun hs => hstands (Option.some.inj hs)

theorem standingOf_acceptReveal {secret : Word} {s : Standing}
    (h : (r.acceptReveal a secret).2 = .ok s) :
    (r.acceptReveal a secret).1.standingOf a = some .revealed := by
  unfold acceptReveal at h ⊢
  split at h
  · cases h
  rename_i hphase
  rw [if_neg hphase]
  split at h
  · cases h
  rename_i p hf
  split at h
  · cases h
  rename_i hcommitted
  split at h
  · cases h
  rename_i hresolved
  split at h
  · cases h
  rename_i hopens
  simp only [if_neg hcommitted, if_neg hresolved, if_neg hopens]
  rw [standingOf_modify (by exact fun _ => rfl), hf, Option.map_some, if_pos rfl]

end Round

namespace Registry

variable {g : Registry} {id id' : UInt64} {r : Round}

theorem find?_prune {keep : Nat} (h : (g.prune keep).find? id = some r) : g.find? id = some r := by
  have hkept : id ∉ g.excess keep := by
    have hmem := (List.mem_filter.mp (List.mem_of_find?_eq_some h)).2
    rw [id_of_find? h] at hmem
    exact of_decide_eq_true hmem
  -- All rounds of a number are dropped or none.
  have hsame : (fun s : Round => decide (decide (s.id ∉ g.excess keep) = true ∧
      decide (s.id = id) = true)) = fun s => decide (s.id = id) := by
    funext s
    by_cases hs : s.id = id
    · simp [hs, hkept]
    · simp [hs]
  rw [prune, drop, find?, List.find?_filter, hsame] at h
  exact h

end Registry

namespace Leader

open Acting (Within)

variable {l l' l'' : Leader} {id id' : UInt64} {key : Nat} {a : Address} {d next : Driver}

/-! ## What leaves a round calm -/

theorem find?_performed {r : Round} (hr : l.registry.find? id = some r) (op : Round.Operation) :
    (l.withRound (r.perform op).1).registry.find? id = some (r.perform op).1 :=
  Registry.find?_replace_self hr ((Round.id_perform r op).trans (Registry.id_of_find? hr))

/-- No request of the round was answered, and the round is as it is after operations other than
the search for the next operator. -/
structure Calm (id : UInt64) (l l' : Leader) : Prop where
  answered : ∀ a, l'.isAnswered id a = true → l.isAnswered id a = true
  round : ∀ r', l'.registry.find? id = some r' → ∃ r ops, l.registry.find? id = some r ∧
    Round.Operation.nextToRequest ∉ ops ∧ r' = r.run ops

namespace Calm

theorem rounds_refl {l l' : Leader} (h : l'.registry.find? id = l.registry.find? id) :
    ∀ r', l'.registry.find? id = some r' → ∃ r ops, l.registry.find? id = some r ∧
      Round.Operation.nextToRequest ∉ ops ∧ r' = r.run ops :=
  fun r' hr' => ⟨r', [], h ▸ hr', List.not_mem_nil, rfl⟩

theorem of_eq (hwaiters : l'.waiters = l.waiters) (hregistry : l'.registry = l.registry) :
    Calm id l l' where
  answered a := by
    rw [isAnswered, hwaiters, isAnswered]
    exact fun h => h
  round := rounds_refl (by rw [hregistry])

theorem refl (l : Leader) : Calm id l l := of_eq rfl rfl

theorem trans (h : Calm id l l') (h' : Calm id l' l'') : Calm id l l'' where
  answered a ha := h.answered a (h'.answered a ha)
  round r'' hr'' := by
    obtain ⟨r', ops', hr', hops', rfl⟩ := h'.round r'' hr''
    obtain ⟨r, ops, hr, hops, rfl⟩ := h.round r' hr'
    refine ⟨r, ops ++ ops', hr, ?_, (Round.run_append r ops ops').symm⟩
    rw [List.mem_append, not_or]
    exact ⟨hops, hops'⟩

theorem of_waiters {waiters : List Waiter}
    (h : ∀ w ∈ waiters, w.answered = true → w ∈ l.waiters) :
    Calm id l { l with waiters } where
  answered a ha := by
    obtain ⟨w, hw, hanswered⟩ := List.any_eq_true.mp ha
    refine List.any_eq_true.mpr ⟨w, h w hw ?_, hanswered⟩
    simp only [Bool.and_eq_true] at hanswered
    exact hanswered.2
  round := rounds_refl rfl

theorem of_operation {r : Round} {op : Round.Operation} (hr : l.registry.find? id' = some r)
    (hop : op = .nextToRequest → id' ≠ id) :
    Calm id l (l.withRound (r.perform op).1) where
  answered _ h := h
  round r' hr' := by
    rw [withRound, Registry.find?_replace, Option.map_eq_some_iff] at hr'
    obtain ⟨s, hs, rfl⟩ := hr'
    have hid : (r.perform op).1.id = id' := (Round.id_perform r op).trans (Registry.id_of_find? hr)
    rw [hid, Registry.id_of_find? hs]
    by_cases hsame : id = id'
    · subst hsame
      rw [hr] at hs
      obtain rfl := Option.some.inj hs
      refine ⟨r, [op], hr, ?_, if_pos rfl⟩
      rw [List.mem_singleton]
      exact fun h => hop h.symm rfl
    · exact ⟨s, [], hs, List.not_mem_nil, if_neg hsame⟩

theorem requested (h : Calm id l l') (ha : l'.standingIn id a = some .revealRequested) :
    l.standingIn id a = some .revealRequested := by
  obtain ⟨r', hr', ha⟩ := Option.bind_eq_some_iff.mp ha
  obtain ⟨r, ops, hr, hops, rfl⟩ := h.round r' hr'
  rw [standingIn_of_find? hr]
  exact Round.requested_of_run hops ha

end Calm

/-- Work leaves a round calm that a driver does not search. -/
theorem bears_calm (id : UInt64) : Bears (· ≠ id) (Calm id) where
  refl := .refl
  trans := .trans
  operation _ hr hop := .of_operation hr hop
  saving _ _ _ _ := .of_eq rfl rfl
  network _ _ := .of_eq rfl rfl
  waking _ _ := .of_eq rfl rfl
  waiters _ _ h := .of_waiters h
  recoveries _ _ := .of_eq rfl rfl
  outcomes _ _ := .of_eq rfl rfl
  pruning l _ :=
    { Calm.refl l with
      round := fun r' hr' => ⟨r', [], Registry.find?_prune hr', List.not_mem_nil, rfl⟩ }

/-! ## The opening of a round -/

/-- What the opening of a round comes to. -/
theorem openRound_eq_ok {eligible : List Address}
    (h : openRound id eligible l = (l', .ok ())) : id ∉ l.registry.ids ∧
      ∃ notice disk latest, l' = broadcast eligible (notice : Message .roundOpened)
        (startDriver id { l with
          registry := ⟨Registry.insertRound (.start id eligible) l.registry.rounds⟩
          disk, latest }) := by
  rw [openRound, Acting.bind_of_ok (Acting.state_apply l)] at h
  obtain ⟨l₁, notice, hnotice, hcreates⟩ := Acting.bind_eq_ok h
  obtain ⟨rfl, -⟩ := Acting.give_eq hnotice
  obtain ⟨l₂, _, hcreate, hraises⟩ := Acting.bind_eq_ok hcreates
  obtain ⟨l₃, _, hraise, hstarts⟩ := Acting.bind_eq_ok hraises
  cases hstarts
  obtain ⟨disk, latest, hl₃⟩ := within_raiseLatest id l₂
  rw [hraise] at hl₃
  obtain rfl : l₃ = { l₂ with disk, latest } := hl₃
  simp only [Acting.within, Acting.ofOperation] at hcreate
  obtain ⟨-, hspec⟩ | ⟨hnew, hspec⟩ := l₁.registry.create_spec id eligible <;>
    rw [hspec] at hcreate <;> cases hcreate
  exact ⟨hnew, notice, disk, latest, rfl⟩

theorem calm_openRound (hne : id' ≠ id) (eligible : List Address) :
    Within (Calm id) (openRound id' eligible) := by
  refine (bears_calm id).openRound id' eligible (fun l => ?_) (fun l _ _ => .of_eq rfl rfl)
    fun l => .of_eq rfl rfl
  refine { Calm.refl l with round := Calm.rounds_refl ?_ }
  obtain ⟨-, hsame⟩ | ⟨-, hcreated⟩ := l.registry.create_spec id' eligible
  · rw [hsame]
  · rw [hcreated]
    exact Registry.find?_insertRound_ne hne

/-! ## The stages of a driver -/

/-- Where the driver of a round goes, and what it found or did on the way. -/
inductive Goes (id : UInt64) (l l' : Leader) : Stage → Stage → Prop where
  | elsewhere {s s' : Stage} (hs : s.operator? = none) (hchoosing : s ≠ .choosing)
      (hlast : s ≠ .pruning) (hs' : s'.operator? = none) : Goes id l l' s s'
  | choose {r : Round} {a : Address} (hr : l.registry.find? id = some r)
      (hl' : l' = l.withRound (r.perform .nextToRequest).1) (hnext : r.nextToRequest.2 = some a) :
      Goes id l l' .choosing (.calling a)
  | exhaust {r : Round} (hr : l.registry.find? id = some r)
      (hl' : l' = l.withRound (r.perform .nextToRequest).1) (hnone : r.nextToRequest.2 = none) :
      Goes id l l' .choosing .awaitingResolution
  | call {a : Address} (hanswered : l'.isAnswered id a = false) :
      Goes id l l' (.calling a) (.asking a)
  | send {a : Address} {deadline : Nat} : Goes id l l' (.asking a) (.awaiting a deadline)
  | lose {a : Address} : Goes id l l' (.asking a) (.givingUp a)
  | wait {a : Address} {deadline : Nat} :
      Goes id l l' (.awaiting a deadline) (.awaiting a deadline)
  | hear {a : Address} {deadline : Nat} (hanswered : l.isAnswered id a = true) :
      Goes id l l' (.awaiting a deadline) .choosing
  | expire {a : Address} {deadline : Nat} : Goes id l l' (.awaiting a deadline) (.givingUp a)
  | giveUp {a : Address} {s' : Stage} (hstands : l'.standingIn id a ≠ some .revealRequested)
      (hs' : s'.operator? = none) : Goes id l l' (.givingUp a) s'

theorem Goes.not_last {s s' : Stage} (h : Goes id l l' s s') : s ≠ .pruning := by
  cases h <;> first | assumption | nofun

theorem waitUntil_eq_ok {deadline : Option Nat} {ready : Round → Bool} {stage : Stage}
    (h : waitUntil d deadline ready stage l = (l', .ok next)) :
    d.Same next ∧ (next.stage = d.stage ∨ next.stage = stage) := by
  rw [waitUntil, Acting.bind_of_ok (Acting.state_apply l)] at h
  split at h
  · obtain ⟨l₁, r, -, h⟩ := Acting.bind_eq_ok h
    cases h
    split
    · exact ⟨⟨rfl, rfl⟩, .inr rfl⟩
    · exact ⟨⟨rfl, rfl⟩, .inl rfl⟩
  split at h
  · cases h
  · cases h
    split
    · exact ⟨⟨rfl, rfl⟩, .inr rfl⟩
    · exact ⟨⟨rfl, rfl⟩, .inl rfl⟩

theorem waited_goes {deadline : Option Nat} {ready : Round → Bool} {stage s : Stage}
    (h : waitUntil d deadline ready stage l = (l', .ok next)) (hstage : d.stage = s)
    (hs : s.operator? = none) (hchoosing : s ≠ .choosing) (hlast : s ≠ .pruning)
    (hs' : stage.operator? = none) : d.Same next ∧ Goes id l l' s next.stage := by
  obtain ⟨hsame, hnext⟩ := waitUntil_eq_ok h
  refine ⟨hsame, .elsewhere hs hchoosing hlast ?_⟩
  rcases hnext with hnext | hnext
  · rw [hnext, hstage]
    exact hs
  · rw [hnext]
    exact hs'

/-- An operator that is given up is not asked any more when the driver goes on. -/
theorem givenUp_goes
    (h : (do
      if ← onRound id (·.markTimedOut a) then
        return d.goTo (.launching [← beginRecovery id a])
      else return d.goTo .choosing : Acting Leader (Option Driver)) l = (l', .ok (some next))) :
    d.Same next ∧ next.stage.operator? = none ∧
      l'.standingIn id a ≠ some .revealRequested := by
  obtain ⟨l₁, marked, hround, h⟩ := Acting.bind_eq_ok h
  obtain ⟨r, hr, hmarked, rfl⟩ := onRound_eq_ok hround
  have hr' : (l.withRound (r.markTimedOut a).1).registry.find? id = some (r.markTimedOut a).1 :=
    find?_performed hr (.markTimedOut a)
  have hstands := Round.standingOf_markTimedOut hmarked
  rw [← standingIn_of_find? hr'] at hstands
  cases marked with
  | false =>
    cases h
    exact ⟨⟨rfl, rfl⟩, rfl, hstands⟩
  | true =>
    obtain ⟨l₂, puzzle, hbegin, h⟩ := Acting.bind_eq_ok h
    cases h
    refine ⟨⟨rfl, rfl⟩, rfl, fun hasked => hstands ?_⟩
    have hcalm := (bears_calm id).beginRecovery id a (l.withRound (r.markTimedOut a).1)
    rw [hbegin] at hcalm
    exact hcalm.requested hasked

theorem isAnswered_called (l : Leader) (id : UInt64) (a : Address) :
    { l with waiters := ⟨id, a, false⟩ :: (l.dropWaiter id a).waiters }.isAnswered id a = false := by
  simp only [isAnswered, dropWaiter, List.any_cons, Bool.and_false, Bool.false_or]
  refine List.any_eq_false.mpr fun w hw hanswered => ?_
  simp only [Bool.and_eq_true, decide_eq_true_eq] at hanswered
  exact of_decide_eq_true (List.mem_filter.mp hw).2 hanswered.1

theorem step_goes (h : step d l = (l', .ok (some next))) :
    d.Same next ∧ Goes d.round l l' d.stage next.stage := by
  rw [step, Acting.bind_of_ok (Acting.state_apply l)] at h
  cases hstage : d.stage <;> rw [hstage] at h
  case collectingCommits deadline =>
    obtain ⟨l₁, next', hwait, h⟩ := Acting.bind_eq_ok h
    cases h
    exact waited_goes hwait hstage rfl nofun nofun rfl
  case collectingCos root deadline =>
    obtain ⟨l₁, next', hwait, h⟩ := Acting.bind_eq_ok h
    cases h
    exact waited_goes hwait hstage rfl nofun nofun rfl
  case awaitingResolution =>
    obtain ⟨l₁, next', hwait, h⟩ := Acting.bind_eq_ok h
    cases h
    exact waited_goes hwait hstage rfl nofun nofun rfl
  case closingCommits =>
    obtain ⟨l₁, root, -, h⟩ := Acting.bind_eq_ok h
    obtain ⟨l₂, r, -, h⟩ := Acting.bind_eq_ok h
    cases h
    exact ⟨⟨rfl, rfl⟩, .elsewhere rfl nofun nofun rfl⟩
  case announcing root committed =>
    obtain ⟨l₁, notice, -, h⟩ := Acting.bind_eq_ok h
    cases h
    exact ⟨⟨rfl, rfl⟩, .elsewhere rfl nofun nofun rfl⟩
  case closingCos root =>
    obtain ⟨l₁, puzzles, -, h⟩ := Acting.bind_eq_ok h
    cases h
    exact ⟨⟨rfl, rfl⟩, .elsewhere rfl nofun nofun rfl⟩
  case launching puzzles =>
    cases h
    exact ⟨⟨rfl, rfl⟩, .elsewhere rfl nofun nofun rfl⟩
  case finishing =>
    obtain ⟨l₁, outcome, -, h⟩ := Acting.bind_eq_ok h
    cases h
    exact ⟨⟨rfl, rfl⟩, .elsewhere rfl nofun nofun rfl⟩
  case pruning => cases h
  case choosing =>
    obtain ⟨l₁, chosen, hround, h⟩ := Acting.bind_eq_ok h
    obtain ⟨r, hr, hnext, rfl⟩ := onRound_eq_ok hround
    cases chosen with
    | some a =>
      cases h
      exact ⟨⟨rfl, rfl⟩, .choose hr rfl (Except.ok.inj hnext)⟩
    | none =>
      cases h
      exact ⟨⟨rfl, rfl⟩, .exhaust hr rfl (Except.ok.inj hnext)⟩
  case calling a =>
    cases h
    exact ⟨⟨rfl, rfl⟩, .call (isAnswered_called l d.round a)⟩
  case asking a =>
    obtain ⟨l₁, arrived, -, h⟩ := Acting.bind_eq_ok h
    cases arrived with
    | true =>
      cases h
      exact ⟨⟨rfl, rfl⟩, .send⟩
    | false =>
      cases h
      exact ⟨⟨rfl, rfl⟩, .lose⟩
  case awaiting a deadline =>
    dsimp only at h
    split at h
    · rename_i hanswered
      cases h
      exact ⟨⟨rfl, rfl⟩, .hear hanswered⟩
    split at h
    · cases h
    split at h
    · cases h
      exact ⟨⟨rfl, rfl⟩, .expire⟩
    · cases h
      refine ⟨⟨rfl, rfl⟩, ?_⟩
      rw [hstage]
      exact .wait
  case givingUp a =>
    obtain ⟨l₁, _, -, h⟩ := Acting.bind_eq_ok h
    obtain ⟨hsame, hstage', hstands⟩ := givenUp_goes h
    exact ⟨hsame, .giveUp hstands hstage'⟩

/-! ## A driver goes on -/

theorem calm_of_ended {result : Except NodeError (Option Driver)} (h : step d l = (l', result))
    (hended : ∀ next, result ≠ .ok (some next)) : Calm d.round l l' := by
  by_cases hchoosing : d.stage = .choosing
  · rw [step, Acting.bind_of_ok (Acting.state_apply l), hchoosing] at h
    cases result with
    | ok next =>
      obtain ⟨l₁, chosen, -, h⟩ := Acting.bind_eq_ok h
      cases chosen <;> cases h <;> exact absurd rfl (hended _)
    | error e =>
      rcases Acting.bind_eq_error h with hround | ⟨l₁, chosen, -, h⟩
      · rcases onRound_eq_error hround with ⟨rfl, -⟩ | ⟨r, c, -, hc, -⟩
        · exact .refl l'
        · cases hc
      · cases chosen <;> cases h
  · have hcalm := (bears_calm d.round).step d (fun h => absurd h hchoosing) l
    rw [h] at hcalm
    exact hcalm

theorem registry_drive (d : Driver) (l : Leader) : (drive d l).registry = (step d l).1.registry := by
  unfold drive
  split
  · rename_i hstep
    rw [hstep]
  · rename_i hstep
    rw [hstep]

theorem stageOf_drive {key : Nat} (hne : key ≠ d.key) :
    (drive d l).stageOf key = l.stageOf key := by
  have hstands := bears_stands.step d (fun _ => trivial) l
  rcases hstep : step d l with ⟨l', result⟩
  rw [hstep] at hstands
  rw [← hstands.stageOf key]
  by_cases hgoes : ∃ next, result = .ok (some next)
  · obtain ⟨next, rfl⟩ := hgoes
    rw [drive_of_goes hstep, stageOf_replaced (step_goes hstep).1, if_neg hne]
  · rw [drive_of_ended hstep (not_exists.mp hgoes), stageOf_removed, if_neg hne]

/-- After a step of a driver all drivers stand where they did, but for that one, which is the
same driver at another stage, or gone. -/
theorem mem_drive {e : Driver} (he : e ∈ (drive d l).drivers) :
    (∃ e' ∈ l.drivers, e'.place = e.place) ∨ d.Same e ∧ d.stage ≠ .pruning := by
  have hstands := bears_stands.step d (fun _ => trivial) l
  rcases hstep : step d l with ⟨l', result⟩
  rw [hstep] at hstands
  by_cases hgoes : ∃ next, result = .ok (some next)
  · obtain ⟨next, rfl⟩ := hgoes
    obtain ⟨hsame, hgoes⟩ := step_goes hstep
    rw [drive_of_goes hstep] at he
    obtain ⟨e', he', rfl⟩ := List.mem_map.mp he
    split
    · exact .inr ⟨hsame, hgoes.not_last⟩
    · exact .inl (hstands.mem he')
  · rw [drive_of_ended hstep (not_exists.mp hgoes)] at he
    have hplace := List.mem_map_of_mem (f := Driver.place) he
    rw [Driver.map_place_hush] at hplace
    obtain ⟨e', he', hsame⟩ := List.mem_map.mp hplace
    obtain ⟨e'', he'', hsame'⟩ := hstands.mem (List.mem_of_mem_filter he')
    exact .inl ⟨e'', he'', hsame'.trans hsame⟩

theorem Keyed.drive (h : l.Keyed) (hd : d ∈ l.drivers) : (drive d l).Keyed where
  sorted := by
    have hstands := bears_stands.step d (fun _ => trivial) l
    rcases hstep : step d l with ⟨l', result⟩
    rw [hstep] at hstands
    have hsorted := (hstands.keyed h).sorted
    by_cases hgoes : ∃ next, result = .ok (some next)
    · obtain ⟨next, rfl⟩ := hgoes
      rw [drive_of_goes hstep, List.map_map]
      have hkeys := List.map_congr_left (l := l'.drivers) fun e _ =>
        key_replaced (step_goes hstep).1 e
      exact hkeys ▸ hsorted
    · rw [drive_of_ended hstep (not_exists.mp hgoes), keys_eq, Driver.map_place_hush,
        ← keys_eq { l' with drivers := l'.drivers.filter _ }]
      exact hsorted.sublist (List.filter_sublist.map _)
  below e he := by
    rw [started_drive]
    rcases mem_drive he with ⟨e', he', hplace⟩ | ⟨hsame, -⟩
    · rw [← show e'.key = e.key from congrArg (·.1) hplace]
      exact h.below e' he'
    · rw [hsame.key]
      exact h.below d hd

theorem InCharge.drive (h : InCharge id key l) (hd : d ∈ l.drivers) :
    InCharge id key (drive d l) where
  started := by
    rw [started_drive]
    exact h.started
  yielding e he := by
    rcases mem_drive he with ⟨e', he', hplace⟩ | ⟨hsame, hlast⟩
    · exact (h.yielding e' he').of_place hplace
    · obtain ⟨hown, hothers⟩ := h.yielding d hd
      rw [Driver.Yields, hsame.key, hsame.round]
      exact ⟨hown, fun hround => .inl ((hothers hround).resolve_right hlast)⟩

theorem calm_drive (hsearch : d.stage = .choosing → d.round ≠ id) (l : Leader) :
    Calm id l (drive d l) := by
  have hcalm := (bears_calm id).step d hsearch l
  rcases hstep : step d l with ⟨l', result⟩
  rw [hstep] at hcalm
  by_cases hgoes : ∃ next, result = .ok (some next)
  · obtain ⟨next, rfl⟩ := hgoes
    rw [drive_of_goes hstep]
    exact ⟨hcalm.answered, hcalm.round⟩
  · rw [drive_of_ended hstep (not_exists.mp hgoes)]
    exact ⟨hcalm.answered, hcalm.round⟩

end Leader

end Beacon
