import Beacon.Proofs.Round.Frozen
import Beacon.Proofs.Round.Outcome
import Mathlib.Data.List.Induction

/-
  Finished rounds. Five operations ask little or nothing of the phase: an operator can be
  timed out, recovered or marked at any time, and a completed round can be finished again.
  What keeps them from touching a finished round is that every operator of it is resolved
  (`Settled`, kept by every step): a round completes only then, and one that is abandoned
  has nobody in it. No move leads on from a resolved operator, so nothing changes a
  finished round (`perform_of_finished`).

  A round is completed by finishing it and by nothing else (`completed_of_perform`). So
  every run to a completed round has a first finish, and each later one hands on the same
  (`finished_frozen`).
-/

namespace Beacon

theorem Participant.Move.of_resolved {id : UInt64} {phase : Phase} {p q : Participant}
    (h : Move id phase p q) (hphase : phase ≠ .collectingCos)
    (hp : p.standing.isResolved = true) : q = p := by
  cases h with
  | stay => rfl
  | disclose hcos => exact absurd hcos hphase
  | miss hcos => exact absurd hcos hphase
  | ask _ hstands => simp [hstands, Standing.isResolved] at hp
  | reveal _ hstands => simp [(Standing.awaitsSecret_iff.mp hstands).2] at hp
  | expire hstands => simp [hstands, Standing.isResolved] at hp
  | recover hstands => simp [hstands, Standing.isResolved] at hp
  | recovered _ hstands => simp [hstands] at hp
  | exposed _ hstands => simp [hstands] at hp
  | fault hstands => simp [hstands] at hp

theorem Phase.isFinished_iff {p : Phase} :
    p.isFinished = true ↔ p = .completed ∨ p = .abandoned := by
  cases p <;> decide

theorem Phase.ne_of_isFinished {p q : Phase} (hp : p.isFinished = true)
    (hq : q.isFinished = false) : p ≠ q := by
  rintro rfl
  rw [hp] at hq
  cases hq

namespace Round

variable {r r' : Round} {op : Operation} {o : RoundOutcome}

/-! ## Everybody is resolved -/

/-- Nothing is left to do for anybody in a finished round. -/
def Settled (r : Round) : Prop :=
  r.phase.isFinished = true → ∀ p ∈ r.records, p.standing.isResolved = true

theorem Moved.eq_of_settled {records : List Participant} (h : r.Moved records) (hr : r.Settled)
    (hfinished : r.phase.isFinished = true) : records = r.records := by
  apply List.ext_getElem h.length_eq.symm
  intro i hi' hi
  exact (h.get hi hi').of_resolved (Phase.ne_of_isFinished hfinished rfl)
    (hr hfinished _ (List.getElem_mem hi))

theorem Settled.step (hr : r.Settled) (hs : Step r r') : r'.Settled := by
  cases hs with
  | stay => exact hr
  | commit hphase => exact fun h => absurd h (by simp [Phase.isFinished, hphase])
  | close => exact nofun
  | abandon _ hnone => exact fun _ p hp => absurd hp (by simp [hnone])
  | install => exact nofun
  | begin => exact nofun
  | move hmoved =>
    intro hfinished
    rw [hmoved.eq_of_settled hr hfinished]
    exact hr hfinished
  | complete hcomplete => exact fun _ => (isComplete_iff.mp hcomplete).2

theorem Reachable.settled (h : r.Reachable) : r.Settled :=
  (h.induct (fun _ _ => nofun) fun _ _ _ hs hr => hr.step hs).2

/-! ## Nothing changes -/

/-- The cursor moves while secrets are asked for, and goes back once the order is
installed; in a finished round it stays. -/
theorem cursor_perform (hfinished : r.phase.isFinished = true) (op : Operation) :
    (r.perform op).1.cursor = r.cursor := by
  have heffect := effect_perform r op
  generalize (r.perform op).1 = r' at heffect
  cases heffect with
  | install hphase | search hphase => exact absurd hphase (Phase.ne_of_isFinished hfinished rfl)
  | _ => rfl

theorem perform_of_finished (hr : r.Reachable) (hfinished : r.phase.isFinished = true)
    (op : Operation) : (r.perform op).1 = r := by
  have hs := step_perform hr.nodup op
  have hcursor := cursor_perform hfinished op
  have hne : ∀ {phase : Phase}, phase.isFinished = false → r.phase ≠ phase :=
    Phase.ne_of_isFinished hfinished
  generalize (r.perform op).1 = r' at hs hcursor
  cases hs with
  | stay => rfl
  | commit h => exact absurd h (hne rfl)
  | close h => exact absurd h (hne rfl)
  | abandon h => exact absurd h (hne rfl)
  | install h => exact absurd h (hne rfl)
  | begin h => exact absurd h (hne rfl)
  | move hmoved =>
    obtain rfl := hmoved.eq_of_settled hr.settled hfinished
    obtain rfl : _ = r.cursor := hcursor
    rfl
  | complete hcomplete =>
    have hcompleted := (isComplete_iff.mp hcomplete).1.resolve_left (hne rfl)
    rw [← hcompleted]

theorem run_of_finished (hr : r.Reachable) (hfinished : r.phase.isFinished = true)
    (ops : List Operation) : r.run ops = r := by
  induction ops with
  | nil => rfl
  | cons op ops ih =>
    show (r.perform op).1.run ops = r
    rw [perform_of_finished hr hfinished op, ih]

/-! ## What is handed on -/

theorem finish_of_complete (h : r.isComplete = true) :
    r.finish = ({ r with phase := .completed }, .ok r.outcome) := by
  rw [finish, if_neg (by simp [h])]
  rfl

theorem run_finish (h : r.isComplete = true) :
    r.run [.finish] = { r with phase := .completed } :=
  congrArg Prod.fst (finish_of_complete h)

theorem completed_of_finish {ops : List Operation} (h : (r.run ops).finish.2 = .ok o) :
    (r.run (ops ++ [.finish])).phase = .completed ∧ (r.run (ops ++ [.finish])).outcome = o := by
  obtain ⟨hcomplete, rfl⟩ := finish_eq_ok.mp h
  rw [run_append, run_finish hcomplete]
  exact ⟨rfl, rfl⟩

theorem completed_of_perform (h : (r.perform op).1.phase = .completed)
    (hphase : r.phase ≠ .completed) : op = .finish ∧ r.isComplete = true := by
  have heffect := effect_perform r op
  generalize (r.perform op).1 = r' at h heffect
  cases heffect with
  | complete hcomplete => exact ⟨rfl, hcomplete⟩
  | close | abandon | install | begin => cases h
  | _ => exact absurd h hphase

/-- Whatever came before, finishing a completed round hands on what it holds. -/
theorem finish_of_completed (hr : r.Reachable) (h : r.phase = .completed) :
    r.finish = (r, .ok r.outcome) := by
  have hresolved := hr.settled (Phase.isFinished_iff.mpr (.inl h))
  rw [finish_of_complete (isComplete_iff.mpr ⟨.inr h, hresolved⟩), ← h]

/-- The finish that completed the round, seen from the end of the run. -/
theorem exists_first_finish (id : UInt64) (eligible : List Address) (ops : List Operation)
    (h : ((start id eligible).run ops).phase = .completed) :
    ∃ before after, ops = before ++ .finish :: after ∧
      ((start id eligible).run before).phase ≠ .completed ∧
      ((start id eligible).run before).finish =
        ((start id eligible).run ops, .ok ((start id eligible).run ops).outcome) := by
  induction ops using List.reverseRecOn with
  | nil => cases h
  | append_singleton ops op ih =>
    have hr := reachable_run id eligible ops
    rw [run_append] at h ⊢
    by_cases hphase : ((start id eligible).run ops).phase = .completed
    · -- The round was completed before, so the last operation changed nothing.
      obtain ⟨before, after, rfl, hbefore, hfinish⟩ := ih hphase
      have hsame : ((start id eligible).run (before ++ .finish :: after)).run [op] = _ :=
        perform_of_finished hr (Phase.isFinished_iff.mpr (.inl hphase)) op
      exact ⟨before, after ++ [op], by simp, hbefore, by rw [hsame, hfinish]⟩
    · obtain ⟨rfl, hcomplete⟩ := completed_of_perform h hphase
      exact ⟨ops, [], rfl, hphase, by rw [run_finish hcomplete, finish_of_complete hcomplete]; rfl⟩

/-- No operation changes anything of a finished round. A completed one was completed by a
finish of the run, the first that was not refused, and whatever is done afterwards a
further finish hands on the same. -/
theorem finished_frozen {id : UInt64} {eligible : List Address} {ops : List Operation}
    (hrun : (start id eligible).run ops = r) (hfinished : r.phase.isFinished = true) :
    (∀ op, (r.perform op).1 = r) ∧
      (r.phase = .completed → ∃ before after o, ops = before ++ .finish :: after ∧
        ((start id eligible).run before).phase ≠ .completed ∧
        ((start id eligible).run before).finish = (r, .ok o) ∧
        ∀ later, (r.run later).finish = (r, .ok o)) := by
  have hr : r.Reachable := ⟨id, eligible, ops, hrun⟩
  refine ⟨perform_of_finished hr hfinished, fun hcompleted => ?_⟩
  obtain ⟨before, after, hops, hbefore, hfinish⟩ :=
    exists_first_finish id eligible ops (by rw [hrun, hcompleted])
  rw [hrun] at hfinish
  refine ⟨before, after, _, hops, hbefore, hfinish, fun later => ?_⟩
  rw [run_of_finished hr hfinished, finish_of_completed hr hcompleted]

theorem finished_frozen_two : ∃ (a b : Address) (secret : Word) (ops : List Operation)
    (r : Round) (o : RoundOutcome), (start 1 [a, b]).run ops = r ∧ r.phase.isFinished = true ∧
      (∀ op, (r.perform op).1 = r) ∧ (∀ later, (r.run later).finish = (r, .ok o)) ∧
      o.secrets = [(a, secret)] ∧ o.faulted = [b] := by
  have hab : (⟨.ofNat 20 1⟩ : Address) ≠ ⟨.ofNat 20 2⟩ := by decide
  have hopens : secretOpens (secondStage (firstStage (.ofNat 32 7))) (.ofNat 32 7) = true :=
    beq_self_eq_true _
  obtain ⟨o, hfinish, hsecrets, hfaulted⟩ := finish_revealAndFault hab hopens hopens
  obtain ⟨hphase, rfl⟩ := completed_of_finish hfinish
  have hfinished := Phase.isFinished_iff.mpr (.inl hphase)
  obtain ⟨hfrozen, hcompleted⟩ := finished_frozen rfl hfinished
  obtain ⟨_, _, o, -, -, -, hlater⟩ := hcompleted hphase
  have hsame := hlater []
  rw [run_of_finished (reachable_run 1 _ _) hfinished,
    finish_of_completed (reachable_run 1 _ _) hphase] at hsame
  obtain rfl := Except.ok.inj (congrArg Prod.snd hsame)
  exact ⟨_, _, _, _, _, _, rfl, hfinished, hfrozen, hlater, hsecrets, hfaulted⟩

end Round

end Beacon
