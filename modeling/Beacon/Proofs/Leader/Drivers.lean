import Beacon.Proofs.Leader.Work

/-
  The drivers of a leader. Each has a key of its own (`Keyed`), by which it is told from others
  of its number: a round can be pruned and its number opened again while the driver of the
  earlier round is still at its last step. Any other driver of its number that the driver of a
  round has beside it is one of those (`InCharge`).

  Work lets every driver stand at its stage (`bears_stands`). A driver starts with a new key
  (`mem_startDriver`), and when it goes on or ends it leaves all others where they stand
  (`stageOf_replaced`, `stageOf_removed`).
-/

namespace Beacon

/-- The operator that a driver deals with at a stage. -/
def Stage.operator? : Stage → Option Address
  | .calling a | .asking a | .awaiting a _ | .givingUp a => some a
  | _ => none

namespace Driver

variable {id : UInt64} {key : Nat} {d e : Driver} {drivers : List Driver}

/-- What a driver is and where it stands, whatever it was told. -/
def place (d : Driver) : Nat × UInt64 × Stage := (d.key, d.round, d.stage)

theorem map_place {change : Driver → Driver} (h : ∀ e, (change e).place = e.place)
    (drivers : List Driver) : (drivers.map change).map place = drivers.map place := by
  rw [List.map_map]
  exact List.map_congr_left fun e _ => h e

theorem map_place_hush (id : UInt64) (drivers : List Driver) :
    (hush id drivers).map place = drivers.map place := by
  refine map_place (fun e => ?_) drivers
  split <;> rfl

structure Same (d next : Driver) : Prop where
  key : next.key = d.key
  round : next.round = d.round

theorem key_of_find? (h : drivers.find? (·.key = key) = some d) : d.key = key :=
  of_decide_eq_true (List.find?_some h :)

/-- A driver leaves a round to the driver of a key: if it is that driver, the round is its own,
and if the round is its own, it is that driver or at its last step. -/
def Yields (id : UInt64) (key : Nat) (d : Driver) : Prop :=
  (d.key = key → d.round = id) ∧ (d.round = id → d.key = key ∨ d.stage = .pruning)

theorem Yields.of_place (h : e.Yields id key) (hplace : e.place = d.place) : d.Yields id key := by
  obtain ⟨hkey, hround, hstage⟩ : e.key = d.key ∧ e.round = d.round ∧ e.stage = d.stage := by
    simpa [place] using hplace
  rwa [Yields, ← hkey, ← hround, ← hstage]

end Driver

namespace Leader

open Acting (Within)

variable {l l' l'' : Leader} {id id' : UInt64} {key : Nat} {a : Address} {d next : Driver}

/-! ## Keys and stages -/

def stageOf (l : Leader) (key : Nat) : Option Stage :=
  (l.drivers.find? (·.key = key)).map (·.stage)

/-- Every driver has a key of its own, and the next one to start has another. -/
structure Keyed (l : Leader) : Prop where
  sorted : (l.drivers.map (·.key)).Pairwise (· < ·)
  below : ∀ d ∈ l.drivers, d.key < l.started

/-- A driver that was started is that of the round. Others of its number are at their last
step. -/
structure InCharge (id : UInt64) (key : Nat) (l : Leader) : Prop where
  started : key < l.started
  yielding : ∀ d ∈ l.drivers, d.Yields id key

/-- The driver of a round stays the one in charge, at its stage. -/
def Unmoved (id : UInt64) (key : Nat) (l l' : Leader) : Prop :=
  InCharge id key l → InCharge id key l' ∧ l'.stageOf key = l.stageOf key

theorem Unmoved.trans (h : Unmoved id key l l') (h' : Unmoved id key l' l'') :
    Unmoved id key l l'' := by
  intro hc
  obtain ⟨hc', hstage⟩ := h hc
  obtain ⟨hc'', hstage'⟩ := h' hc'
  exact ⟨hc'', hstage'.trans hstage⟩

/-- No driver starts, ends or goes on. -/
structure Stands (l l' : Leader) : Prop where
  started : l'.started = l.started
  places : l'.drivers.map Driver.place = l.drivers.map Driver.place

theorem stageOf_eq (l : Leader) (key : Nat) : l.stageOf key =
    ((l.drivers.map Driver.place).find? (·.1 = key)).map (·.2.2) := by
  rw [List.find?_map, Option.map_map]
  rfl

theorem keys_eq (l : Leader) :
    l.drivers.map (·.key) = (l.drivers.map Driver.place).map (·.1) := by
  rw [List.map_map]
  rfl

namespace Stands

theorem refl (l : Leader) : Stands l l := ⟨rfl, rfl⟩

theorem mem (h : Stands l l') (hd : d ∈ l'.drivers) : ∃ e ∈ l.drivers, e.place = d.place :=
  List.mem_map.mp (h.places ▸ List.mem_map_of_mem hd)

theorem keyed (h : Stands l l') (hk : l.Keyed) : l'.Keyed where
  sorted := by
    rw [keys_eq, h.places, ← keys_eq]
    exact hk.sorted
  below d hd := by
    obtain ⟨e, he, hplace⟩ := h.mem hd
    rw [h.started, ← show e.key = d.key from congrArg (·.1) hplace]
    exact hk.below e he

theorem stageOf (h : Stands l l') (key : Nat) : l'.stageOf key = l.stageOf key := by
  rw [stageOf_eq, h.places, stageOf_eq]

theorem unmoved (h : Stands l l') : Unmoved id key l l' := by
  refine fun hc => ⟨⟨h.started ▸ hc.started, fun d hd => ?_⟩, h.stageOf key⟩
  obtain ⟨e, he, hplace⟩ := h.mem hd
  exact (hc.yielding e he).of_place hplace

end Stands

/-- Work lets every driver stand where it does, until the driver itself goes on. -/
theorem bears_stands : Bears (fun _ => True) Stands where
  refl := .refl
  trans h h' := ⟨h'.started.trans h.started, h'.places.trans h.places⟩
  operation _ _ _ := ⟨rfl, rfl⟩
  saving _ _ _ _ := ⟨rfl, rfl⟩
  network _ _ := ⟨rfl, rfl⟩
  waking _ _ := by
    refine ⟨rfl, Driver.map_place (fun e => ?_) _⟩
    split <;> rfl
  waiters _ _ _ := ⟨rfl, rfl⟩
  recoveries _ _ := ⟨rfl, rfl⟩
  outcomes _ _ := ⟨rfl, rfl⟩
  pruning _ _ := ⟨rfl, rfl⟩

theorem bears_unmoved (id : UInt64) (key : Nat) : Bears (fun _ => True) (Unmoved id key) :=
  bears_stands.mono Stands.unmoved Unmoved.trans

theorem bears_keyed : Bears (fun _ => True) fun l l' => l.Keyed → l'.Keyed :=
  bears_stands.mono Stands.keyed fun h h' => h' ∘ h

/-! ## Starts -/

theorem within_register_rest (peer : String) :
    Within (fun l l' => Stands l l' ∧ l'.waiters = l.waiters ∧ l'.registry = l.registry)
      (register a peer) := by
  intro l
  have hrest := (within_register (a := a) peer l).rest
  exact ⟨⟨(congrArg Leader.started hrest :),
    congrArg (List.map Driver.place) (congrArg Leader.drivers hrest :)⟩,
    (congrArg Leader.waiters hrest :), (congrArg Leader.registry hrest :)⟩

theorem places_startDriver (id : UInt64) (l : Leader) :
    (startDriver id l).drivers.map Driver.place = l.drivers.map Driver.place ++
      [(l.started, id, .collectingCommits (l.after l.settings.commitWindow))] := by
  rw [startDriver, List.map_append, Driver.map_place_hush]
  rfl

/-- The drivers after a start are those before it, and one with the next key, which deals with
no operator yet. -/
theorem mem_startDriver (hd : d ∈ (startDriver id l).drivers) :
    (∃ e ∈ l.drivers, e.place = d.place) ∨
      d.key = l.started ∧ d.round = id ∧ d.stage.operator? = none := by
  have hplace := List.mem_map_of_mem (f := Driver.place) hd
  rw [places_startDriver, List.mem_append] at hplace
  rcases hplace with hplace | hplace
  · exact .inl (List.mem_map.mp hplace)
  · have hnew := List.mem_singleton.mp hplace
    refine .inr ⟨congrArg (·.1) hnew, congrArg (·.2.1) hnew, ?_⟩
    rw [show d.stage = _ from congrArg (·.2.2) hnew]
    rfl

theorem Keyed.startDriver (h : l.Keyed) (id : UInt64) : (startDriver id l).Keyed where
  sorted := by
    rw [keys_eq, places_startDriver, List.map_append, ← keys_eq, List.pairwise_append]
    refine ⟨h.sorted, List.pairwise_singleton _ _, fun key hkey new hnew => ?_⟩
    obtain ⟨d, hd, rfl⟩ := List.mem_map.mp hkey
    rw [List.mem_singleton.mp hnew]
    exact h.below d hd
  below d hd := by
    show d.key < l.started + 1
    rcases mem_startDriver hd with ⟨e, he, hplace⟩ | ⟨hkey, -⟩
    · rw [← show e.key = d.key from congrArg (·.1) hplace]
      exact Nat.lt_succ_of_lt (h.below e he)
    · omega

theorem unmoved_startDriver (hne : id' ≠ id) (l : Leader) :
    Unmoved id key l (startDriver id' l) := by
  intro h
  have hnew : l.started ≠ key := Nat.ne_of_gt h.started
  refine ⟨⟨Nat.lt_succ_of_lt h.started, fun d hd => ?_⟩, ?_⟩
  · rcases mem_startDriver hd with ⟨e, he, hplace⟩ | ⟨hkey, hround, -⟩
    · exact (h.yielding e he).of_place hplace
    · exact ⟨fun hd => absurd (hkey.symm.trans hd) hnew,
        fun hd => absurd (hround.symm.trans hd) hne⟩
  · rw [stageOf_eq, places_startDriver, List.find?_append,
      List.find?_cons_of_neg (by simpa using hnew), stageOf_eq]
    simp

/-! ## Steps -/

theorem drive_of_goes (h : step d l = (l', .ok (some next))) : drive d l =
    { l' with drivers := l'.drivers.map fun e => if e.key = d.key then next else e } := by
  rw [drive, h]

theorem drive_of_ended {result : Except NodeError (Option Driver)} (h : step d l = (l', result))
    (hended : ∀ next, result ≠ .ok (some next)) : drive d l =
      { l' with drivers := Driver.hush d.round (l'.drivers.filter (·.key ≠ d.key)) } := by
  rw [drive, h]
  rcases result with e | _ | next
  · rfl
  · rfl
  · exact absurd rfl (hended next)

theorem started_drive (d : Driver) (l : Leader) : (drive d l).started = l.started := by
  have hstands := bears_stands.step d (fun _ => trivial) l
  unfold drive
  split <;> rename_i hstep <;> rw [hstep] at hstands <;> exact hstands.started

theorem key_replaced (hsame : d.Same next) (e : Driver) :
    (if e.key = d.key then next else e).key = e.key := by
  split
  · rename_i he
    rw [hsame.key, he]
  · rfl

theorem stageOf_replaced (hsame : d.Same next) (key : Nat) :
    { l with
      drivers := l.drivers.map fun e : Driver => if e.key = d.key then next else e }.stageOf key =
      if key = d.key then (l.stageOf key).map fun _ => next.stage else l.stageOf key := by
  simp only [stageOf, List.find?_map, Function.comp_def, key_replaced hsame, Option.map_map]
  cases hfound : l.drivers.find? (·.key = key) with
  | none => split <;> rfl
  | some e =>
    rw [← Driver.key_of_find? hfound, Option.map_some]
    split
    · rfl
    · rfl

theorem stageOf_removed (l : Leader) (d : Driver) (key : Nat) :
    { l with drivers := Driver.hush d.round (l.drivers.filter (·.key ≠ d.key)) }.stageOf key =
      if key = d.key then none else l.stageOf key := by
  rw [stageOf_eq, Driver.map_place_hush, ← stageOf_eq { l with drivers := l.drivers.filter _ },
    stageOf, List.find?_filter]
  split
  · rename_i hkey
    rw [List.find?_eq_none.mpr, Option.map_none]
    intro e _ he
    simp [hkey] at he
  · rename_i hkey
    have hsame : (fun e : Driver => decide (decide (e.key ≠ d.key) = true ∧
        decide (e.key = key) = true)) = fun e => decide (e.key = key) := by
      funext e
      by_cases he : e.key = key
      · simp [he, hkey]
      · simp [he]
    rw [hsame, stageOf]

end Leader

end Beacon
