import Beacon.Proofs.Leader.Drivers
import Beacon.Proofs.Leader.Rounds
import Beacon.Proofs.Round.Closing

/-
  The driver of a round at the end of the wait for first stages. It closes the wait,
  fixes the order, begins the reveals and begins the recovery of each operator listed,
  and ends if any of it is refused. So a round with an operator that was recovered
  before it disclosed loses its driver there, and nobody finishes it
  (`drive_closing_ends`).
-/

namespace Beacon.Leader

variable {l l' : Leader} {id : UInt64} {a : Address}

/-- Where an operator stands in a round of the leader. -/
def standingIn (l : Leader) (id : UInt64) (a : Address) : Option Standing :=
  (l.registry.find? id).bind (·.standingOf a)

theorem standingIn_of_find? {r : Round} (h : l.registry.find? id = some r) :
    l.standingIn id a = r.standingOf a := by
  rw [standingIn, h, Option.bind_some]

theorem beginRecovery_eq_ok {puzzle : Puzzle} (h : beginRecovery id a l = (l', .ok puzzle)) :
    l.standingIn id a = some .timedOut ∧
      ∀ b, b ≠ a → l'.standingIn id b = l.standingIn id b := by
  obtain ⟨l₁, p, hround, h⟩ := Acting.bind_eq_ok h
  obtain ⟨r, hr, hbegun, hl₁⟩ := onRound_eq_ok hround
  have hstands : r.standingOf a = some .timedOut := Round.beginRecovery_eq_ok hbegun
  obtain ⟨q, -, hstep⟩ := Round.beginRecovery_of_timedOut hstands
  have hr₁ : l₁.registry.find? id = some (r.setStanding a .recovering) := by
    rw [hl₁, hstep]
    exact Registry.find?_replace_self hr (show r.id = id from Registry.id_of_find? hr)
  obtain ⟨l₂, _, hkeep, h⟩ := Acting.bind_eq_ok h
  obtain ⟨⟨disk, rfl⟩, -⟩ := keepRecord_eq hr₁ hkeep
  -- Keeping the record and starting the task leave the rounds alone.
  have hr' : l'.registry.find? id = some (r.setStanding a .recovering) := by
    cases h
    exact hr₁
  refine ⟨(standingIn_of_find? hr).trans hstands, fun b hb => ?_⟩
  rw [standingIn_of_find? hr, standingIn_of_find? hr']
  exact Round.standingOf_setStanding_ne hb

theorem mapM_beginRecovery_eq_ok {as : List Address} {puzzles : List Puzzle}
    (h : as.mapM (beginRecovery id) l = (l', .ok puzzles)) :
    ∀ b ∈ as, l.standingIn id b = some .timedOut := by
  induction as generalizing l l' puzzles with
  | nil => exact nofun
  | cons a as ih =>
    rw [List.mapM_cons] at h
    obtain ⟨l₁, puzzle, hbegun, h⟩ := Acting.bind_eq_ok h
    obtain ⟨l₂, rest, hrest, -⟩ := Acting.bind_eq_ok h
    obtain ⟨ha, hothers⟩ := beginRecovery_eq_ok hbegun
    intro b hb
    by_cases hba : b = a
    · exact hba ▸ ha
    · rw [← hothers b hba]
      exact ih hrest b ((List.mem_cons.mp hb).resolve_left hba)

theorem standingIn_onRound {α : Type} {f : Round → Round × Except RoundError α} {x : α}
    (hf : ∀ r, (f r).1.id = r.id ∧ (f r).1.records = r.records)
    (h : onRound id f l = (l', .ok x)) : l'.standingIn id a = l.standingIn id a := by
  obtain ⟨r, hr, -, rfl⟩ := onRound_eq_ok h
  have hr' : (l.withRound (f r).1).registry.find? id = some (f r).1 :=
    Registry.find?_replace_self hr ((hf r).1.trans (Registry.id_of_find? hr))
  rw [standingIn_of_find? hr, standingIn_of_find? hr', Round.standingOf, Round.find?, (hf r).2]
  rfl

theorem standingIn_installOrder {combined : Option Word} {order : List Address}
    (h : onRound id (·.installOrder combined order) l = (l', .ok ())) :
    l'.standingIn id a = l.standingIn id a := by
  refine standingIn_onRound (fun r => ⟨?_, ?_⟩) h
  · exact r.id_perform (.installOrder combined order)
  · exact r.records_perform (.installOrder combined order) rfl

theorem standingIn_beginRevealing (h : onRound id Round.beginRevealing l = (l', .ok ())) :
    l'.standingIn id a = l.standingIn id a := by
  refine standingIn_onRound (fun r => ⟨?_, ?_⟩) h
  · exact r.id_perform .beginRevealing
  · exact r.records_perform .beginRevealing rfl

theorem timedOut_of_begun {as : List Address} {puzzles : List Puzzle}
    (h : (do onRound id Round.beginRevealing; as.mapM (beginRecovery id) : Acting Leader _) l =
      (l', .ok puzzles)) : ∀ b ∈ as, l.standingIn id b = some .timedOut := by
  obtain ⟨l₁, _, hbegin, h⟩ := Acting.bind_eq_ok h
  intro b hb
  rw [← standingIn_beginRevealing hbegin]
  exact mapM_beginRecovery_eq_ok h b hb

/-- The wait is closed without a refusal only if nobody without a first stage was being
recovered or had been resolved. -/
theorem closeCos_eq_ok {r : Round} {root : Word} {puzzles : List Puzzle}
    (hr : l.registry.find? id = some r) (hd : r.committed.Nodup)
    (h : closeCos id root l = (l', .ok puzzles)) : r.MissingIdle := by
  obtain ⟨l₁, missing, hclose, h⟩ := Acting.bind_eq_ok h
  obtain ⟨r₀, hr₀, hmissing, hl₁⟩ := onRound_eq_ok hclose
  obtain rfl := Option.some.inj (hr.symm.trans hr₀)
  have hphase := Round.phase_of_closeCos hmissing
  rw [Round.closeCos_eq hphase] at hmissing hl₁
  obtain rfl := Except.ok.inj hmissing
  have hr₁ : l₁.registry.find? id = some r.closed := by
    rw [hl₁]
    exact Registry.find?_replace_self hr (show r.id = id from Registry.id_of_find? hr)
  obtain ⟨l₂, r₂, hround, h⟩ := Acting.bind_eq_ok h
  obtain ⟨rfl, rfl⟩ : l₁ = l₂ ∧ r.closed = r₂ := by
    rw [round_of_find? hr₁] at hround
    cases hround
    exact ⟨rfl, rfl⟩
  -- However the order is fixed, operators stand as they did when the wait was closed.
  have hall : ∀ b ∈ r.missing, l₁.standingIn id b = some .timedOut := by
    intro b hb
    dsimp only at h
    split at h
    · obtain ⟨l₃, _, hinstall, h⟩ := Acting.bind_eq_ok h
      rw [← standingIn_installOrder hinstall]
      exact timedOut_of_begun h b hb
    · obtain ⟨l₃, o, horder, h⟩ := Acting.bind_eq_ok h
      obtain ⟨l₄, _, hinstall, h⟩ := Acting.bind_eq_ok h
      have hl₃ : l₁.registry = l₃.registry := congrArg (·.1.registry) horder
      rw [standingIn, hl₃, ← standingIn, ← standingIn_installOrder hinstall]
      exact timedOut_of_begun h b hb
  refine (Round.missing_timedOut_iff hd).mp fun b hb => ?_
  rw [← standingIn_of_find? hr₁]
  exact hall b hb

/-- The driver of a round in which an operator without a first stage was recovered, or is
being recovered, ends when the wait for first stages does. -/
theorem drive_closing_ends {d : Driver} {r : Round} {root : Word}
    (hr : l.registry.find? d.round = some r) (hreach : r.Reachable)
    (hstage : d.stage = .closingCos root) (hidle : ¬r.MissingIdle) :
    ∀ e ∈ (drive d l).drivers, e.key ≠ d.key := by
  have hrefused : ∀ l' next, step d l ≠ (l', .ok next) := by
    intro l' next h
    obtain ⟨l₁, l₂, hstate, h⟩ := Acting.bind_eq_ok h
    cases hstate
    simp only [hstage] at h
    obtain ⟨l₃, puzzles, hclose, -⟩ := Acting.bind_eq_ok h
    exact hidle (closeCos_eq_ok hr hreach.nodup hclose)
  rcases hstep : step d l with ⟨l', e | next⟩
  · rw [drive, hstep]
    intro e he
    have hplace := List.mem_map_of_mem (f := Driver.place) he
    rw [Driver.map_place_hush] at hplace
    obtain ⟨kept, hkept, hsame⟩ := List.mem_map.mp hplace
    rw [← show kept.key = e.key from congrArg Prod.fst hsame]
    exact of_decide_eq_true (List.mem_filter.mp hkept).2
  · exact absurd hstep (hrefused l' next)

end Beacon.Leader
