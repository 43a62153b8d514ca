import Beacon.Proofs.Recovery.Solving
import Beacon.Proofs.Round.Coherence
import Beacon.Proofs.Round.Frozen

/-
  How operators are judged. Recoveries and the mark that follows a failed solving judge
  an operator, and nothing else does: whoever stands recovered or faulted after an
  operation stood so before, or was judged by it (`judged_perform`).

  A run is lawful if its recoveries are checked under one choice of parameters and it
  marks nobody whose puzzle was not solved first. As long as the recoveries of a puzzle
  prove its solution, lawful runs judge its operator justly: recovered only if the seal
  is consistent, and faulted only if it is not (`just_run`).
-/

namespace Beacon

namespace Round

variable {r : Round} {params : DelayParams}

/-! ## Judgements -/

/-- Where an operator stands because its seal was looked under. -/
def Judged (s : Standing) : Prop := s = .recovered ∨ s = .faulted

/-- How an operation judges the operator of a puzzle. -/
inductive Judges (r : Round) : Operation → Puzzle → Standing → Prop where
  | accepted {given : DelayParams} {proof : Recovery} {p : Participant} {secret : Word}
      (hf : r.find? proof.operator = some p)
      (hcheck : (p.puzzle r.id).check given proof = .ok secret) :
      Judges r (.applyRecovery given proof) (p.puzzle r.id) .recovered
  | convicted {given : DelayParams} {proof : Recovery} {p : Participant} {e : RecoveryError}
      (hf : r.find? proof.operator = some p)
      (hcheck : (p.puzzle r.id).check given proof = .error e) (hfault : e.isFault = true) :
      Judges r (.applyRecovery given proof) (p.puzzle r.id) .faulted
  | marked {a : Address} {p : Participant} (hf : r.find? a = some p) :
      Judges r (.markFaulted a) (p.puzzle r.id) .faulted

/-- Whoever is judged in the second list stood so in the first. -/
def Quiet (ps qs : List Participant) : Prop :=
  ∀ q ∈ qs, Judged q.standing →
    ∃ p ∈ ps, (∀ id, p.puzzle id = q.puzzle id) ∧ p.standing = q.standing

theorem quiet_refl (ps : List Participant) : Quiet ps ps :=
  fun q hq _ => ⟨q, hq, fun _ => rfl, rfl⟩

theorem quiet_map {ps : List Participant} {f : Participant → Participant}
    (h : ∀ p ∈ ps, Judged (f p).standing →
      (∀ id, p.puzzle id = (f p).puzzle id) ∧ p.standing = (f p).standing) :
    Quiet ps (ps.map f) := by
  intro q hq hjudged
  obtain ⟨p, hp, rfl⟩ := List.mem_map.mp hq
  exact ⟨p, hp, h p hp hjudged⟩

theorem quiet_modify (r : Round) (a : Address) {change : Participant → Participant}
    (h : ∀ p, Judged (change p).standing →
      (∀ id, p.puzzle id = (change p).puzzle id) ∧ p.standing = (change p).standing) :
    Quiet r.records (r.modify a change).records := by
  apply quiet_map
  intro p _
  split
  · exact h p
  · exact fun _ => ⟨fun _ => rfl, rfl⟩

theorem quiet_setStanding (r : Round) (a : Address) {s : Standing} (h : ¬Judged s) :
    Quiet r.records (r.setStanding a s).records :=
  r.quiet_modify a fun _ hs => absurd hs h

theorem quiet_acceptCommit (r : Round) (operator : Address) (cvs sealed : Word) :
    Quiet r.records (r.acceptCommit operator cvs sealed).1.records := by
  unfold acceptCommit
  split
  · exact quiet_refl _
  split
  · exact quiet_refl _
  split
  · exact quiet_refl _
  intro q hq hjudged
  rcases List.mem_append.mp hq with hq | hq
  · exact ⟨q, hq, fun _ => rfl, rfl⟩
  · -- The new record only committed.
    rw [List.mem_singleton.mp hq] at hjudged
    simp [Judged] at hjudged

theorem quiet_acceptCos (r : Round) (operator : Address) (cos : Word) :
    Quiet r.records (r.acceptCos operator cos).1.records := by
  unfold acceptCos
  split
  · exact quiet_refl _
  split
  · exact quiet_refl _
  split
  · exact quiet_refl _
  split
  · exact quiet_refl _
  exact r.quiet_modify operator fun _ _ => ⟨fun _ => rfl, rfl⟩

theorem quiet_closeCos (r : Round) : Quiet r.records r.closeCos.1.records := by
  unfold closeCos
  split
  · exact quiet_refl _
  apply quiet_map
  intro p _
  unfold Missing.mark
  split
  · exact fun hjudged => absurd hjudged (by simp [Judged])
  · exact fun _ => ⟨fun _ => rfl, rfl⟩

theorem quiet_nextToRequest (r : Round) : Quiet r.records r.nextToRequest.1.records := by
  unfold nextToRequest
  split
  · exact quiet_refl _
  rcases requestFirst_spec (r.order.drop r.cursor) r with ⟨_, a, _, _, _, _, h⟩ | ⟨_, h⟩
  · rw [h]
    exact quiet_setStanding { r with cursor := _ } a (by simp [Judged])
  · rw [h]
    exact quiet_refl _

theorem quiet_acceptReveal (r : Round) (operator : Address) (secret : Word) :
    Quiet r.records (r.acceptReveal operator secret).1.records := by
  unfold acceptReveal
  split
  · exact quiet_refl _
  split
  · exact quiet_refl _
  split
  · exact quiet_refl _
  split
  · exact quiet_refl _
  split
  · exact quiet_refl _
  exact r.quiet_modify operator fun _ hjudged => absurd hjudged (by simp [Judged])

theorem quiet_markTimedOut (r : Round) (operator : Address) :
    Quiet r.records (r.markTimedOut operator).1.records := by
  unfold markTimedOut
  split
  · exact quiet_refl _
  split
  · exact quiet_refl _
  exact r.quiet_setStanding operator (by simp [Judged])

theorem quiet_beginRecovery (r : Round) (operator : Address) :
    Quiet r.records (r.beginRecovery operator).1.records := by
  unfold beginRecovery
  split
  · exact quiet_refl _
  split
  · exact quiet_refl _
  exact r.quiet_setStanding operator (by simp [Judged])

theorem quiet_turnsPhase {r : Round} {op : Operation} (hop : op.turnsPhase = true) :
    Quiet r.records (r.perform op).1.records := by
  rw [r.records_perform op hop]
  exact quiet_refl _

/-- A change to the record found, seen at one record afterwards: it is one that was
there before, or the record found with the change. -/
theorem mem_modify (hd : r.committed.Nodup) {a : Address} {p q : Participant}
    (hf : r.find? a = some p) {change : Participant → Participant}
    (hq : q ∈ (r.modify a change).records) : q ∈ r.records ∨ q = change p := by
  obtain ⟨p', hp', rfl⟩ := List.mem_map.mp hq
  split
  · rename_i ha
    obtain rfl := Option.some.inj (((find?_eq_some hd).mpr ⟨hp', ha⟩).symm.trans hf)
    exact .inr rfl
  · exact .inl hp'

theorem judged_applyRecovery (hd : r.committed.Nodup) {given : DelayParams} {proof : Recovery}
    {q : Participant} (hq : q ∈ (r.applyRecovery given proof).1.records) :
    q ∈ r.records ∨ Judges r (.applyRecovery given proof) (q.puzzle r.id) q.standing := by
  unfold applyRecovery at hq
  split at hq
  · exact .inl hq
  split at hq
  · exact .inl hq
  rename_i p hf
  split at hq
  · exact .inl hq
  split at hq
  · rename_i secret hcheck
    have hjudges := Judges.accepted hf hcheck
    refine (mem_modify hd hf hq).imp_right ?_
    rintro rfl
    exact hjudges
  · rename_i e hcheck
    split at hq
    · rename_i hfault
      have hjudges := Judges.convicted hf hcheck hfault
      refine (mem_modify hd hf hq).imp_right ?_
      rintro rfl
      exact hjudges
    · exact .inl hq

theorem judged_markFaulted (hd : r.committed.Nodup) {a : Address} {q : Participant}
    (hq : q ∈ (r.markFaulted a).1.records) :
    q ∈ r.records ∨ Judges r (.markFaulted a) (q.puzzle r.id) q.standing := by
  unfold markFaulted at hq
  split at hq
  · exact .inl hq
  rename_i p hf
  split at hq
  · exact .inl hq
  have hjudges := Judges.marked hf
  refine (mem_modify hd hf hq).imp_right ?_
  rintro rfl
  exact hjudges

/-- Whoever stands judged after an operation stood so before, or was judged by it. -/
theorem judged_perform (hd : r.committed.Nodup) {op : Operation} {q : Participant}
    (hq : q ∈ (r.perform op).1.records) (hjudged : Judged q.standing) :
    (∃ p ∈ r.records, (∀ id, p.puzzle id = q.puzzle id) ∧ p.standing = q.standing) ∨
      Judges r op (q.puzzle r.id) q.standing := by
  cases op with
  | acceptCommit operator cvs sealed =>
    exact .inl (r.quiet_acceptCommit operator cvs sealed q hq hjudged)
  | closeCommits => exact .inl (quiet_turnsPhase rfl q hq hjudged)
  | acceptCos operator cos => exact .inl (r.quiet_acceptCos operator cos q hq hjudged)
  | closeCos => exact .inl (r.quiet_closeCos q hq hjudged)
  | installOrder combined order => exact .inl (quiet_turnsPhase rfl q hq hjudged)
  | beginRevealing => exact .inl (quiet_turnsPhase rfl q hq hjudged)
  | nextToRequest => exact .inl (r.quiet_nextToRequest q hq hjudged)
  | acceptReveal operator secret =>
    exact .inl (r.quiet_acceptReveal operator secret q hq hjudged)
  | markTimedOut operator => exact .inl (r.quiet_markTimedOut operator q hq hjudged)
  | beginRecovery operator => exact .inl (r.quiet_beginRecovery operator q hq hjudged)
  | applyRecovery given proof =>
    exact (judged_applyRecovery hd hq).imp_left fun h => ⟨q, h, fun _ => rfl, rfl⟩
  | markFaulted a =>
    exact (judged_markFaulted hd hq).imp_left fun h => ⟨q, h, fun _ => rfl, rfl⟩
  | finish => exact .inl (quiet_turnsPhase rfl q hq hjudged)

/-! ## Lawful runs -/

/-- What is asked of an operation: recoveries are checked under the one choice of
parameters, and an operator is marked only after solving its puzzle convicted it. -/
def Lawful (params : DelayParams) (r : Round) : Operation → Prop
  | .applyRecovery given _ => given = params
  | .markFaulted a => ∀ p ∈ r.puzzles, p.operator = a →
      ∃ stop e, p.solve params stop = .error e ∧ e.isFault = true
  | _ => True

/-- Every operation of a run is lawful where it is done. -/
def LawfulRun (params : DelayParams) : Round → List Operation → Prop
  | _, [] => True
  | r, op :: ops => Lawful params r op ∧ LawfulRun params (r.perform op).1 ops

/-- Every recovery handed in among the operations proves the solution of the puzzle, if
it proves anything of it. -/
def Undeceived (params : DelayParams) (p : Puzzle) (ops : List Operation) : Prop :=
  ∀ given proof, .applyRecovery given proof ∈ ops → p.Truthful params proof

/-- An operator stands recovered only if its seal is consistent, and faulted only if it
is not. -/
structure Just (params : DelayParams) (p : Puzzle) (s : Standing) : Prop where
  recovered : s = .recovered → p.Consistent params
  faulted : s = .faulted → ¬p.Consistent params

theorem Judges.just (hN : 0 < params.modulus) (ht : params.delay ≠ 0) {op : Operation}
    {p : Puzzle} {s : Standing} (h : Judges r op p s) (hlawful : Lawful params r op)
    (htrue : Undeceived params p [op]) : Just params p s := by
  cases h with
  | accepted hf hcheck =>
    subst hlawful
    exact ⟨fun _ => Puzzle.consistent_of_check (htrue _ _ (.head _)) hcheck, nofun⟩
  | convicted hf hcheck hfault =>
    subst hlawful
    exact ⟨nofun, fun _ => Puzzle.not_consistent_of_check (htrue _ _ (.head _)) hcheck hfault⟩
  | marked hf =>
    obtain ⟨hp, hoperator⟩ := mem_of_find? hf
    obtain ⟨stop, e, hsolve, hfault⟩ := hlawful _ (List.mem_map_of_mem hp) hoperator
    exact ⟨nofun, fun _ => Puzzle.not_consistent_of_solve hN ht hsolve hfault⟩

theorem just_run (hN : 0 < params.modulus) (ht : params.delay ≠ 0) (hr : r.Reachable)
    {p : Puzzle} {ops : List Operation} (hlawful : LawfulRun params r ops)
    (htrue : Undeceived params p ops)
    (h : ∀ q ∈ r.records, q.puzzle r.id = p → Just params p q.standing) :
    ∀ q ∈ (r.run ops).records, q.puzzle r.id = p → Just params p q.standing := by
  induction ops generalizing r with
  | nil => exact h
  | cons op ops ih =>
    have hid : (r.perform op).1.id = r.id := (step_perform hr.nodup op).id_eq
    refine hid ▸ ih (hr.perform op) hlawful.2
      (fun given proof hmem => htrue given proof (.tail _ hmem)) ?_
    rw [hid]
    rintro q hq rfl
    -- Whoever is not judged after the operation has nothing to be just about.
    by_cases hjudged : Judged q.standing
    · rcases judged_perform hr.nodup hq hjudged with ⟨q', hq', hpuzzle, hstands⟩ | hjudges
      · exact hstands ▸ h q' hq' (hpuzzle r.id)
      · exact hjudges.just hN ht hlawful.1 fun given proof hmem =>
          htrue given proof (List.mem_singleton.mp hmem ▸ .head _)
    · rw [Judged, not_or] at hjudged
      exact ⟨fun hs => absurd hs hjudged.1, fun hs => absurd hs hjudged.2⟩

end Round

end Beacon
