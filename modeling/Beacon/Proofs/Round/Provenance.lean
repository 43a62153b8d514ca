import Beacon.Proofs.Round.History
import Beacon.Proofs.Round.Independence
import Beacon.Proofs.Round.Judgement

/-
  Where the contents of a record come from. A first stage or a secret on record opens
  the commitment, and a recovery on record was handed in and accepted at some point of
  the run, under parameters under which the puzzle still accepts it
  (`Participant.Accounted`). `record_accounted` says so of every record of every run.

  The first part is the invariant of rounds. For the second, a recovery that is on record
  after an operation was there before, or the operation put it there
  (`recovery_of_perform`); the point of the run where it came in follows by induction
  from the end.
-/

namespace Beacon

/-- What a record of the round `id` holds after the operations, and which of them
brought the recovery in. -/
structure Participant.Accounted (id : UInt64) (eligible : List Address)
    (ops : List Round.Operation) (p : Participant) : Prop where
  cos_opens : ∀ cos, p.cos = some cos → keccak256 cos.bytes = p.cvs
  secret_isSome : p.secret.isSome = true ↔ p.standing = .revealed ∨ p.standing = .recovered
  secret_opens : ∀ secret, p.secret = some secret →
    keccak256 (keccak256 secret.bytes).bytes = p.cvs
  recovery_isSome : p.recovery.isSome = true ↔ p.standing = .recovered
  recovery_names : ∀ proof, p.recovery = some proof →
    proof.round = id ∧ proof.operator = p.operator ∧ p.secret = some proof.secret
  recovery_applied : ∀ proof, p.recovery = some proof → ∃ before params after,
    ops = before ++ .applyRecovery params proof :: after ∧
      (((Round.start id eligible).run before).applyRecovery params proof).2 = .ok .recovered ∧
      (p.puzzle id).check params proof = .ok proof.secret

namespace Round

variable {r : Round} {op : Operation} {params : DelayParams} {proof : Recovery} {q : Participant}

/-- A recovery changes the record of its operator only, which holds the recovery if it
was accepted. -/
theorem mem_applyRecovery (hd : r.committed.Nodup)
    (hq : q ∈ (r.applyRecovery params proof).1.records) (hstands : q.standing = .recovered) :
    q ∈ r.records ∨ ((r.applyRecovery params proof).2 = .ok .recovered ∧
      q.recovery = some proof ∧ (q.puzzle r.id).check params proof = .ok proof.secret) := by
  unfold applyRecovery at hq ⊢
  split at hq
  · exact .inl hq
  rename_i hphase
  rw [if_neg hphase]
  split at hq
  · exact .inl hq
  rename_i p hf
  split at hq
  · exact .inl hq
  rename_i hres
  simp only [if_neg hres]
  split at hq
  · rename_i secret hcheck
    have hsecret : proof.secret = secret := (Puzzle.check_eq_ok.mp hcheck).2.2
    refine (mem_modify hd hf hq).imp_right ?_
    rintro rfl
    exact ⟨rfl, rfl, hsecret ▸ hcheck⟩
  · split at hq
    · -- A convicted operator does not stand recovered.
      refine (mem_modify hd hf hq).imp_right ?_
      rintro rfl
      cases hstands
    · exact .inl hq

theorem judges_recovered {p : Puzzle} {s : Standing} (h : Judges r op p s) (hs : s = .recovered) :
    ∃ params proof, op = .applyRecovery params proof := by
  cases h with
  | accepted => exact ⟨_, _, rfl⟩
  | convicted => cases hs
  | marked => cases hs

theorem recovery_of_perform (hr : r.Reachable) (hq : q ∈ (r.perform op).1.records)
    (hproof : q.recovery = some proof) :
    (∃ p ∈ r.records, (∀ id, p.puzzle id = q.puzzle id) ∧ p.recovery = some proof) ∨
      ∃ params, op = .applyRecovery params proof ∧
        (r.applyRecovery params proof).2 = .ok .recovered ∧
        (q.puzzle r.id).check params proof = .ok proof.secret := by
  have hcoherent := (hr.perform op).coherent.records q hq
  have hstands : q.standing = .recovered := hcoherent.recovery_isSome.mp (by simp [hproof])
  rcases judged_perform hr.nodup hq (.inl hstands) with ⟨p, hp, hpuzzle, hs⟩ | hjudges
  · -- The operator stood recovered already, so it had a recovery, and keeps it.
    have hpstands : p.standing = .recovered := hs.trans hstands
    obtain ⟨proof', hproof'⟩ := Option.isSome_iff_exists.mp
      ((hr.coherent.records p hp).recovery_isSome.mpr hpstands)
    obtain ⟨kept, added, hrecords, hkept, -⟩ := (advance_perform hr op).records
    obtain ⟨i, hi, rfl⟩ := List.getElem_of_mem hp
    have hi' : i < kept.length := hkept.length_eq ▸ hi
    have hcontinues := hkept.get hi hi'
    simp only [List.get_eq_getElem] at hcontinues
    have hmem : kept[i] ∈ (r.perform op).1.records :=
      hrecords ▸ List.mem_append_left _ (List.getElem_mem hi')
    have hoperator : kept[i].operator = q.operator :=
      hcontinues.operator_eq.trans (congrArg Puzzle.operator (hpuzzle 0))
    have hsame : kept[i] = q :=
      List.inj_on_of_nodup_map (hr.perform op).nodup hmem hq hoperator
    have hkeeps := hcontinues.recovery_kept proof' hproof'
    rw [hsame, hproof] at hkeeps
    exact .inl ⟨_, hp, hpuzzle, hproof'.trans hkeeps.symm⟩
  · obtain ⟨params, given, rfl⟩ := judges_recovered hjudges hstands
    rcases mem_applyRecovery hr.nodup hq hstands with hmem | ⟨hanswer, hgiven, hcheck⟩
    · exact .inl ⟨q, hmem, fun _ => rfl, hproof⟩
    · obtain rfl := Option.some.inj (hproof.symm.trans hgiven)
      exact .inr ⟨params, rfl, hanswer, hcheck⟩

theorem recovery_applied (id : UInt64) (eligible : List Address) (ops : List Operation)
    (hq : q ∈ ((start id eligible).run ops).records) (hproof : q.recovery = some proof) :
    ∃ before params after, ops = before ++ .applyRecovery params proof :: after ∧
      (((start id eligible).run before).applyRecovery params proof).2 = .ok .recovered ∧
      (q.puzzle id).check params proof = .ok proof.secret := by
  induction ops using List.reverseRecOn generalizing q with
  | nil => cases hq
  | append_singleton ops op ih =>
    rw [run_append] at hq
    rcases recovery_of_perform (reachable_run id eligible ops) hq hproof with
      ⟨p, hp, hpuzzle, hp'⟩ | ⟨params, rfl, hanswer, hcheck⟩
    · obtain ⟨before, params, after, rfl, hanswer, hcheck⟩ := ih hp hp'
      exact ⟨before, params, after ++ [op], by simp, hanswer, hpuzzle id ▸ hcheck⟩
    · have hid : ((start id eligible).run ops).id = id := run_id (reachable_run id eligible []) ops
      exact ⟨ops, params, [], rfl, hanswer, hid ▸ hcheck⟩

/-- Whatever is on record after any operations in any order is accounted for. -/
theorem record_accounted (id : UInt64) (eligible : List Address) (ops : List Operation)
    {p : Participant} (hp : p ∈ ((start id eligible).run ops).records) :
    p.Accounted id eligible ops := by
  have hid : ((start id eligible).run ops).id = id := run_id (reachable_run id eligible []) ops
  have hc := (reachable_run id eligible ops).coherent.records p hp
  rw [hid] at hc
  refine ⟨fun cos h => by simpa [cosOpens, secondStage] using hc.cos_opens cos h, hc.secret_isSome,
    fun secret h => secretOpens_iff.mp (hc.secret_opens secret h), hc.recovery_isSome, ?_,
    fun _ => recovery_applied id eligible ops hp⟩
  intro proof hproof
  obtain ⟨hsecret, params, hcheck⟩ := hc.recovery_accepted proof hproof
  obtain ⟨⟨_, hproves, _⟩, _⟩ := Puzzle.check_eq_ok.mp hcheck
  exact ⟨hproves.round_eq, hproves.operator_eq, hsecret⟩

theorem record_accounted_recovered : ∃ (ops : List Operation) (p : Participant),
    p ∈ ((start 1 [loneOperator, ⟨.ofNat 20 2⟩]).run ops).records ∧ p.standing = .recovered ∧
      p.Accounted 1 [loneOperator, ⟨.ofNat 20 2⟩] ops := by
  have hopens : secretOpens loneCommitment.cvs loneCommitment.secret = true :=
    secretOpens_iff.mpr rfl
  obtain ⟨proof, -, hcheck⟩ := Puzzle.solve_of_sealed (by decide) (by decide)
    loneRound_holdsSealed.sealed_eq hopens
  have hrecords := (run_recoverAndFault (a := loneOperator) (b := ⟨.ofNat 20 2⟩) (by decide) rfl
    hcheck).1
  have hstands := congrArg (fun l => (l[0]?).map (·.2.2)) hrecords
  simp only [List.getElem?_map, List.getElem?_cons_zero, Option.map_some, Option.map_map,
    Option.map_eq_some_iff] at hstands
  obtain ⟨p, hp, hs⟩ := hstands
  have hmem := List.mem_of_getElem? hp
  exact ⟨_, p, hmem, hs, record_accounted 1 _ _ hmem⟩

end Round

end Beacon
