import Beacon.Proofs.Recovery.Solving
import Beacon.Proofs.Round.Coherence
import Beacon.Proofs.Round.Fault
import Beacon.Proofs.Round.Frozen
import Beacon.Proofs.Round.Refusal

/-
  The end of the wait for first stages. Closing the wait lists every operator without
  a first stage, but times out only those that did nothing else. A driver then fixes
  the order, begins the reveals and begins the recovery of each operator listed.

  Fixing the order and beginning the reveals always go through. Beginning the
  recoveries goes through exactly if everyone listed did nothing but commit, or was
  timed out already (`closing_proceeds_iff`); otherwise it stops at the first who stands
  elsewhere. A recovery may come in before the wait is over, so an operator can stand
  elsewhere by then (`recovered_stops_closing`).
-/

namespace Beacon

namespace Round

variable {r : Round}

/-! ## Beginning recoveries -/

/-- Begins the recovery of one operator after the other, up to the first refusal; the
answer lists their puzzles. -/
def beginRecoveries : List Address → Round → Round × Except RoundError (List Puzzle)
  | [], r => (r, .ok [])
  | a :: rest, r =>
    match r.beginRecovery a with
    | (r, .ok puzzle) =>
      let (r, puzzles) := beginRecoveries rest r
      (r, puzzles.map (puzzle :: ·))
    | (r, .error e) => (r, .error e)

theorem beginRecovery_of_timedOut {a : Address} (h : r.standingOf a = some .timedOut) :
    ∃ puzzle, puzzle.operator = a ∧
      r.beginRecovery a = (r.setStanding a .recovering, .ok puzzle) := by
  obtain ⟨p, hf, hs⟩ := standingOf_eq_some.mp h
  refine ⟨p.puzzle r.id, (mem_of_find? hf).2, ?_⟩
  rw [beginRecovery, hf]
  exact if_neg (not_not.mpr hs)

theorem beginRecovery_of_other {a : Address} {s : Standing} (h : r.standingOf a = some s)
    (hs : s ≠ .timedOut) : r.beginRecovery a = (r, .error (.invalidState a s)) := by
  obtain ⟨p, hf, rfl⟩ := standingOf_eq_some.mp h
  rw [beginRecovery, hf]
  exact if_pos hs

theorem beginRecovery_eq_ok {a : Address} {puzzle : Puzzle}
    (h : (r.beginRecovery a).2 = .ok puzzle) : r.standingOf a = some .timedOut := by
  unfold beginRecovery at h
  split at h
  · cases h
  rename_i p hf
  split at h
  · cases h
  rename_i hs
  exact standingOf_eq_some.mpr ⟨p, hf, not_not.mp hs⟩

theorem beginRecoveries_of_timedOut {as : List Address} (hd : as.Nodup)
    (h : ∀ a ∈ as, r.standingOf a = some .timedOut) :
    ∃ puzzles, puzzles.map (·.operator) = as ∧ (beginRecoveries as r).2 = .ok puzzles := by
  induction as generalizing r with
  | nil => exact ⟨[], rfl, rfl⟩
  | cons a as ih =>
    obtain ⟨ha, hd⟩ := List.nodup_cons.mp hd
    obtain ⟨puzzle, hoperator, hbegun⟩ := beginRecovery_of_timedOut (h a (.head _))
    -- The others still stand as they did.
    have hrest : ∀ b ∈ as, (r.setStanding a .recovering).standingOf b = some .timedOut := by
      intro b hb
      rw [standingOf_setStanding_ne (by rintro rfl; exact ha hb)]
      exact h b (.tail _ hb)
    obtain ⟨puzzles, hoperators, hok⟩ := ih hd hrest
    refine ⟨puzzle :: puzzles, by rw [List.map_cons, hoperator, hoperators], ?_⟩
    simp only [beginRecoveries, hbegun, hok, Except.map]

theorem beginRecoveries_of_other {as : List Address} (hd : as.Nodup)
    (hstands : ∀ a ∈ as, ∃ s, r.standingOf a = some s)
    (h : ¬∀ a ∈ as, r.standingOf a = some .timedOut) :
    ∃ a ∈ as, ∃ s ≠ .timedOut, r.standingOf a = some s ∧
      (beginRecoveries as r).2 = .error (.invalidState a s) := by
  induction as generalizing r with
  | nil => exact absurd nofun h
  | cons a as ih =>
    obtain ⟨ha, hd⟩ := List.nodup_cons.mp hd
    obtain ⟨s, hs⟩ := hstands a (.head _)
    by_cases htimedOut : s = .timedOut
    · subst htimedOut
      obtain ⟨puzzle, -, hbegun⟩ := beginRecovery_of_timedOut hs
      have hother : ∀ b ∈ as, (r.setStanding a .recovering).standingOf b = r.standingOf b :=
        fun b hb => standingOf_setStanding_ne (by rintro rfl; exact ha hb)
      have hrest : ¬∀ b ∈ as, (r.setStanding a .recovering).standingOf b = some .timedOut := by
        intro hall
        refine h (List.forall_mem_cons.mpr ⟨hs, fun b hb => ?_⟩)
        rw [← hother b hb]
        exact hall b hb
      obtain ⟨b, hb, s, hs, hsb, herror⟩ :=
        ih hd (fun b hb => hother b hb ▸ hstands b (.tail _ hb)) hrest
      refine ⟨b, .tail _ hb, s, hs, hother b hb ▸ hsb, ?_⟩
      simp only [beginRecoveries, hbegun, herror, Except.map]
    · refine ⟨a, .head _, s, htimedOut, hs, ?_⟩
      simp only [beginRecoveries, beginRecovery_of_other hs htimedOut]

/-! ## Closing -/

/-- The operators without a first stage. -/
def missing (r : Round) : List Address :=
  (r.records.filter (·.cos.isNone)).map (·.operator)

/-- Nobody without a first stage did anything but commit, or was resolved. -/
def MissingIdle (r : Round) : Prop :=
  ∀ p ∈ r.records, p.cos = none → p.standing = .committed ∨ p.standing = .timedOut

def closed (r : Round) : Round := { r with records := r.records.map Missing.mark }

theorem closeCos_eq (hphase : r.phase = .collectingCos) :
    r.closeCos = (r.closed, .ok r.missing) :=
  if_neg (not_not.mpr hphase)

theorem phase_of_closeCos {as : List Address} (h : r.closeCos.2 = .ok as) :
    r.phase = .collectingCos := by
  unfold closeCos at h
  split at h
  · cases h
  · rename_i hphase
    exact not_not.mp hphase

theorem Missing.operator_mark (p : Participant) : (Missing.mark p).operator = p.operator := by
  unfold Missing.mark
  split <;> rfl

theorem Missing.cos_mark (p : Participant) : (Missing.mark p).cos = p.cos := by
  unfold Missing.mark
  split <;> rfl

theorem Missing.standing_mark {p : Participant} (h : p.cos = none) :
    (Missing.mark p).standing = .timedOut ↔ p.standing = .committed ∨ p.standing = .timedOut := by
  by_cases hs : p.standing = .committed <;> simp [Missing.mark, h, hs]

theorem mem_missing (hd : r.committed.Nodup) {a : Address} :
    a ∈ r.missing ↔ ∃ p, r.find? a = some p ∧ p.cos = none := by
  simp only [missing, find?_eq_some hd, List.mem_map, List.mem_filter, Option.isNone_iff_eq_none]
  constructor
  · rintro ⟨p, ⟨hp, hcos⟩, rfl⟩
    exact ⟨p, ⟨hp, rfl⟩, hcos⟩
  · rintro ⟨p, ⟨hp, rfl⟩, hcos⟩
    exact ⟨p, ⟨hp, hcos⟩, rfl⟩

theorem missing_nodup (hd : r.committed.Nodup) : r.missing.Nodup :=
  hd.sublist (List.filter_sublist.map _)

theorem disclosed_closed (r : Round) : r.closed.disclosed = r.disclosed := by
  simp only [disclosed, closed, List.filterMap_map, Function.comp_def, Missing.cos_mark,
    Missing.operator_mark]

theorem standingOf_closed (r : Round) (a : Address) :
    r.closed.standingOf a = (r.find? a).map fun p => (Missing.mark p).standing := by
  rw [standingOf, closed, find?_map Missing.operator_mark, Option.map_map]
  rfl

theorem missing_timedOut_iff (hd : r.committed.Nodup) :
    (∀ a ∈ r.missing, r.closed.standingOf a = some .timedOut) ↔ r.MissingIdle := by
  constructor
  · intro h p hp hcos
    have hf : r.find? p.operator = some p := (find?_eq_some hd).mpr ⟨hp, rfl⟩
    have := h p.operator ((mem_missing hd).mpr ⟨p, hf, hcos⟩)
    rw [standingOf_closed, hf, Option.map_some, Option.some_inj] at this
    exact (Missing.standing_mark hcos).mp this
  · intro h a ha
    obtain ⟨p, hf, hcos⟩ := (mem_missing hd).mp ha
    rw [standingOf_closed, hf, Option.map_some, (Missing.standing_mark hcos).mpr]
    exact h p (mem_of_find? hf).1 hcos

/-- The wait for first stages can always be closed, and with any order of those that
disclosed the reveals begin. Everyone listed is timed out then, and the recoveries of
all of them are begun, exactly if nobody without a first stage was being recovered or
had been resolved before; else beginning them stops at one who was. -/
theorem closing_proceeds_iff (hr : r.Reachable) (hphase : r.phase = .collectingCos)
    (combined : Option Word) {order : List Address}
    (hcovers : Covers order (r.disclosed.map (·.1))) :
    ∃ ordered revealing, r.closeCos = (r.closed, .ok r.missing) ∧
      r.closed.disclosed = r.disclosed ∧
      r.closed.installOrder combined order = (ordered, .ok ()) ∧
      ordered.beginRevealing = (revealing, .ok ()) ∧
      (∀ a, a ∈ r.missing ↔ ∃ p, r.find? a = some p ∧ p.cos = none) ∧
      ((∀ a ∈ r.missing, r.closed.standingOf a = some .timedOut) ↔ r.MissingIdle) ∧
      (r.MissingIdle → ∃ puzzles, puzzles.map (·.operator) = r.missing ∧
        (beginRecoveries r.missing revealing).2 = .ok puzzles) ∧
      (¬r.MissingIdle → ∃ a ∈ r.missing, ∃ s ≠ .timedOut, r.closed.standingOf a = some s ∧
        (beginRecoveries r.missing revealing).2 = .error (.invalidState a s)) := by
  have hd := hr.nodup
  have hcovers' : Covers order (r.closed.disclosed.map (·.1)) := r.disclosed_closed ▸ hcovers
  refine ⟨{ r.closed with combined, order, cursor := 0, phase := .orderDetermined },
    { r.closed with combined, order, cursor := 0, phase := .revealing }, closeCos_eq hphase,
    r.disclosed_closed, ?_, rfl, fun a => mem_missing hd, missing_timedOut_iff hd, ?_, ?_⟩
  · have hclosed : r.closed.phase = .collectingCos := hphase
    rw [installOrder, if_neg (not_not.mpr hclosed), if_pos hcovers']
  · intro hidle
    exact beginRecoveries_of_timedOut (missing_nodup hd) ((missing_timedOut_iff hd).mpr hidle)
  · intro hidle
    -- Neither the order nor the phase has a part in where operators stand.
    refine beginRecoveries_of_other
      (r := { r.closed with combined, order, cursor := 0, phase := .revealing })
      (missing_nodup hd) ?_ (mt (missing_timedOut_iff hd).mp hidle)
    intro a ha
    obtain ⟨p, hf, -⟩ := (mem_missing hd).mp ha
    exact ⟨_, (r.standingOf_closed a).trans (by rw [hf]; rfl)⟩

theorem loneRound_reachable : loneRound.Reachable :=
  reachable_run 1 [loneOperator]
    [.acceptCommit loneOperator loneCommitment.cvs loneSeal, .closeCommits]

theorem closing_proceeds_iff_lone : loneRound.Reachable ∧ loneRound.phase = .collectingCos ∧
    Covers [] (loneRound.disclosed.map (·.1)) ∧ loneRound.MissingIdle ∧
    ∃ ordered revealing, loneRound.closeCos = (loneRound.closed, .ok [loneOperator]) ∧
      loneRound.closed.installOrder none [] = (ordered, .ok ()) ∧
      ordered.beginRevealing = (revealing, .ok ()) ∧
      loneRound.closed.standingOf loneOperator = some .timedOut ∧
      ∃ puzzles, puzzles.map (·.operator) = [loneOperator] ∧
        (beginRecoveries [loneOperator] revealing).2 = .ok puzzles := by
  have hcovers : Covers [] (loneRound.disclosed.map (·.1)) := ⟨.nil, nofun, nofun⟩
  have hidle : loneRound.MissingIdle := by
    intro p hp _
    rw [List.mem_singleton.mp hp]
    exact .inl rfl
  obtain ⟨ordered, revealing, hclose, -, hinstall, hbegin, -, htimedOut, hproceeds, -⟩ :=
    closing_proceeds_iff loneRound_reachable rfl none hcovers
  exact ⟨loneRound_reachable, rfl, hcovers, hidle, ordered, revealing, hclose, hinstall, hbegin,
    htimedOut.mpr hidle loneOperator (.head _), hproceeds hidle⟩

/-- A recovery of an operator without a first stage is taken in before the wait is over,
and the wait cannot be closed any more without a refusal. -/
theorem not_missingIdle_of_applyRecovery {r' : Round} {params : DelayParams} {proof : Recovery}
    {p : Participant} {s : Standing} (hf : r.find? proof.operator = some p) (hcos : p.cos = none)
    (h : r.applyRecovery params proof = (r', .ok s)) : ¬r'.MissingIdle := by
  have hresolved : ∀ {change : Participant → Participant}, (change p).cos = none →
      (change p).standing.isResolved = true → ¬(r.modify proof.operator change).MissingIdle := by
    intro change hcos hresolved hidle
    have hp : change p ∈ (r.modify proof.operator change).records :=
      List.mem_map.mpr ⟨p, (mem_of_find? hf).1, if_pos (mem_of_find? hf).2⟩
    rcases hidle _ hp hcos with hs | hs <;> simp [hs, Standing.isResolved] at hresolved
  simp only [applyRecovery, hf] at h
  split at h
  · cases h
  split at h
  · cases h
  split at h
  · cases h
    exact hresolved hcos rfl
  · split at h
    · cases h
      exact hresolved hcos rfl
    · cases h

def loneRecovered (proof : DelayProof) : Participant :=
  { loneRecord with
    secret := some loneCommitment.secret
    standing := .recovered
    recovery := some ⟨1, loneOperator, loneCommitment.secret, proof⟩ }

/-- The only operator has its secret recovered from its honest seal before the wait for
first stages is over. Closing the wait lists it all the same, and the recovery that the
driver begins next is refused. -/
theorem recovered_stops_closing :
    DelayParams.check 5 3 = .ok ⟨5, 3⟩ ∧ ∃ (proof : Recovery) (r ordered revealing : Round),
      Puzzle.solve ⟨1, loneOperator, loneCommitment.cvs, loneSeal⟩ ⟨5, 3⟩ .never = .ok proof ∧
      loneRound.applyRecovery ⟨5, 3⟩ proof = (r, .ok .recovered) ∧
      r.Reachable ∧ r.phase = .collectingCos ∧ r.closeCos = (r.closed, .ok [loneOperator]) ∧
      r.closed.standingOf loneOperator = some .recovered ∧
      r.closed.installOrder none [] = (ordered, .ok ()) ∧
      ordered.beginRevealing = (revealing, .ok ()) ∧
      (beginRecoveries [loneOperator] revealing).2 =
        .error (.invalidState loneOperator .recovered) := by
  obtain ⟨proof, hsolve, hcheck⟩ := Puzzle.solve_of_sealed (by decide) (by decide)
    loneRound_holdsSealed.sealed_eq (secretOpens_iff.mpr rfl)
  have happly : loneRound.applyRecovery ⟨5, 3⟩ ⟨1, loneOperator, loneCommitment.secret, proof⟩ =
      ({ loneRound with records := [loneRecovered proof] }, .ok .recovered) := by
    have hopen : ¬(loneRound.phase = .collectingCommits ∨ loneRound.phase = .abandoned) := nofun
    have hf : loneRound.find? loneOperator = some loneRecord := rfl
    have hcheck' : (loneRecord.puzzle loneRound.id).check ⟨5, 3⟩
        ⟨1, loneOperator, loneCommitment.secret, proof⟩ = .ok loneCommitment.secret := hcheck
    simp only [applyRecovery, if_neg hopen, hf, hcheck']
    rfl
  have hreachable := loneRound_reachable.perform
    (.applyRecovery ⟨5, 3⟩ ⟨1, loneOperator, loneCommitment.secret, proof⟩)
  rw [perform, answer, happly] at hreachable
  exact ⟨rfl, _, _, _, _, hsolve, happly, hreachable, rfl, rfl, rfl, rfl, rfl, rfl⟩

end Round

end Beacon
