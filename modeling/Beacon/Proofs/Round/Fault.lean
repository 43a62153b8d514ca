import Beacon.Proofs.Recovery.Seal
import Beacon.Proofs.Round.Step

/-
  What a recovery can do to an operator that sealed its secret honestly. It makes the
  operator faulted exactly if its proof passes from the puzzle's base with a result
  that is false and uncovers something else (`applyRecovery_faulted_iff`). Passing
  proofs of false results are there for every delay above one, so an honest operator
  is not safe from them (`honest_faulted_iff`).
-/

namespace Beacon

open Puzzle (applySeal)

namespace Round

variable {r : Round} {params : DelayParams} {proof : Recovery} {p : Participant}

/-- A recovery of an unresolved operator makes it faulted exactly if it convicts it. -/
theorem applyRecovery_faulted_iff (hcommits : r.phase ≠ .collectingCommits)
    (hphase : r.phase ≠ .abandoned) (hf : r.find? proof.operator = some p)
    (hres : p.standing.isResolved = false) :
    (r.applyRecovery params proof).2 = .ok .faulted ↔
      ∃ y, (p.puzzle r.id).Proves params proof y ∧
        secretOpens p.cvs (applySeal p.sealed y) = false := by
  have hverdict : (∃ e, (p.puzzle r.id).check params proof = .error e ∧ e.isFault = true) ↔
      ∃ y, (p.puzzle r.id).Proves params proof y ∧
        secretOpens p.cvs (applySeal p.sealed y) = false := Puzzle.check_eq_fault
  rw [← hverdict, applyRecovery, if_neg (by simp [hcommits, hphase]), hf]
  simp only [hres, Bool.false_eq_true, if_false]
  cases (p.puzzle r.id).check params proof with
  | ok secret => simp
  | error e => by_cases he : e.isFault = true <;> simp [he]

/-- The round holds the record of an operator that is not resolved yet and sealed the
secret of its commitment under these parameters. -/
structure HoldsSealed (r : Round) (params : DelayParams) (c : Commitment)
    (stop : Delay.StopSignal) (p : Participant) : Prop where
  round_eq : r.id = c.round
  closed : r.phase ≠ .collectingCommits
  going : r.phase ≠ .abandoned
  found : r.find? c.operator = some p
  cvs_eq : p.cvs = c.cvs
  sealed_eq : Puzzle.sealSecret params c stop = .ok p.sealed
  unresolved : p.standing.isResolved = false

variable {N : Nat} {T : UInt64} {c : Commitment} {stop : Delay.StopSignal}

/-- What an honest seal is made from: the base of the puzzle, its true solution, and a
secret that opens the commitment. -/
theorem HoldsSealed.solution (h : r.HoldsSealed ⟨N, T⟩ c stop p) (hN : 0 < N)
    (hopens : secretOpens c.cvs c.secret = true) :
    ∃ x, (p.puzzle r.id).base ⟨N, T⟩ = .ok x ∧
      secretOpens p.cvs (applySeal p.sealed (x ^ 2 ^ T.toNat % N)) = true := by
  obtain ⟨x, hx, hsealed⟩ := Puzzle.sealSecret_eq_ok hN h.sealed_eq
  have hoperator : p.operator = c.operator := (mem_of_find? h.found).2
  refine ⟨x, ?_, ?_⟩
  · rw [Puzzle.base, Participant.round_puzzle, Participant.operator_puzzle,
      Participant.cvs_puzzle, h.round_eq, hoperator, h.cvs_eq]
    exact hx
  · rw [hsealed, Puzzle.applySeal_applySeal, h.cvs_eq]
    exact hopens

/-- When an honest operator is faulted by a recovery: exactly if the recovery proves a
result that is false and uncovers something else. There is none for a delay of one and
none modulo four. Above that there is one for every result that uncovers something
else, unless its challenge with the midpoint zero is zero. -/
theorem honest_faulted_iff {round : UInt64} {operator : Address} {secret : Word}
    (hp : DelayParams.check N T = .ok params)
    (h : r.HoldsSealed params (.ofSecret round operator secret) stop p) :
    ∃ x, (p.puzzle r.id).base params = .ok x ∧
      (∀ proof : Recovery, proof.operator = operator →
        ((r.applyRecovery params proof).2 = .ok .faulted ↔
          ∃ y, (p.puzzle r.id).Proves params proof y ∧ y ≠ x ^ 2 ^ T.toNat % N ∧
            secretOpens p.cvs (applySeal p.sealed y) = false)) ∧
      (T = 1 ∨ N = 4 → ∀ proof : Recovery, proof.operator = operator →
        (r.applyRecovery params proof).2 ≠ .ok .faulted) ∧
      (T ≠ 1 → N ≠ 4 → ∀ y < N, DelayClaim.challenge x y 0 ≠ 0 →
        secretOpens p.cvs (applySeal p.sealed y) = false →
        ∃ proof : Recovery, proof.operator = operator ∧
          (r.applyRecovery params proof).2 = .ok .faulted) := by
  obtain ⟨hT, hN, rfl⟩ := DelayParams.check_eq_ok.mp hp
  obtain ⟨x, hx, hopens⟩ := h.solution (by omega) (secretOpens_iff.mpr rfl)
  have hoperator : p.operator = operator := (mem_of_find? h.found).2
  have hfaulted : ∀ proof : Recovery, proof.operator = operator →
      ((r.applyRecovery ⟨N, T⟩ proof).2 = .ok .faulted ↔
        ∃ y, (p.puzzle r.id).Proves ⟨N, T⟩ proof y ∧ y ≠ x ^ 2 ^ T.toNat % N ∧
          secretOpens p.cvs (applySeal p.sealed y) = false) := by
    intro proof hproof
    rw [applyRecovery_faulted_iff h.closed h.going (hproof ▸ h.found) h.unresolved]
    -- The true solution uncovers the secret, so a result that does not is false.
    apply exists_congr
    intro y
    rw [and_congr_right_iff, iff_and_self]
    intro _ hy hyY
    rw [hyY, hopens] at hy
    cases hy
  refine ⟨x, hx, hfaulted, ?_, ?_⟩
  · intro hsafe proof hproof hfault
    obtain ⟨y, hproves, hne, -⟩ := (hfaulted proof hproof).mp hfault
    rcases hsafe with rfl | rfl
    · exact hne (hproves.result_eq hx rfl)
    · -- Modulo four the base is four itself, which no well-formed claim is about.
      have hlt : x < 4 := hproves.base_lt hx
      obtain rfl := Except.ok.inj ((Puzzle.baseOf_eq_four (.inl rfl)).symm.trans hx)
      exact absurd hlt (Nat.lt_irrefl 4)
  · intro hT1 hN4 y hy hr hfalse
    have hxlt : x < N := Puzzle.baseOf_lt (by omega) hx
    obtain ⟨proof, hproof, hproves⟩ := Puzzle.exists_proves hx hxlt hy hT hT1 hr
    refine ⟨proof, hproof.trans hoperator, ?_⟩
    rw [applyRecovery_faulted_iff h.closed h.going (hproof.trans hoperator ▸ h.found) h.unresolved]
    exact ⟨y, hproves, hfalse⟩

/-! ## A round of one operator -/

def loneOperator : Address := ⟨⟨List.replicate 20 0x01, rfl⟩⟩

def loneCommitment : Commitment := .ofSecret 1 loneOperator ⟨List.replicate 32 0x11, rfl⟩

/-- The seal of the only operator under three squarings modulo five, of which one is
the solution. -/
def loneSeal : Word := applySeal loneCommitment.secret 1

def loneRound : Round :=
  ((start 1 [loneOperator]).acceptCommit loneOperator loneCommitment.cvs loneSeal).1.closeCommits.1

def loneRecord : Participant :=
  { operator := loneOperator, commitIndex := 0, cvs := loneCommitment.cvs, sealed := loneSeal
    cos := none, secret := none, standing := .committed, recovery := none }

/-- Under the negated solution the seal uncovers a word that does not open the
commitment. -/
theorem loneSeal_negated : secretOpens loneCommitment.cvs (applySeal loneSeal 4) = false := by
  rw [Bool.eq_false_iff, Ne, secretOpens_iff]
  intro h
  have hbytes := congrArg Octets.bytes h
  revert hbytes
  simp only [loneCommitment, loneSeal, Commitment.ofSecret, firstStage, secondStage, applySeal,
    Octets.xor, Puzzle.pad, digest, bytes_keccak256]
  decide +kernel

theorem loneRound_eq : ∃ root, loneRound =
    { start 1 [loneOperator] with
      phase := .collectingCos, records := [loneRecord], merkleRoot := some root } :=
  ⟨_, rfl⟩

theorem loneRound_holdsSealed :
    loneRound.HoldsSealed ⟨5, 3⟩ loneCommitment .never loneRecord := by
  obtain ⟨root, hround⟩ := loneRound_eq
  rw [hround]
  refine ⟨rfl, nofun, nofun, rfl, rfl, ?_, rfl⟩
  rw [Puzzle.sealSecret, Puzzle.baseOf_eq_four (.inr rfl)]
  rfl

theorem honest_faulted_iff_five :
    DelayParams.check 5 3 = .ok ⟨5, 3⟩ ∧
      loneRound.HoldsSealed ⟨5, 3⟩ loneCommitment .never loneRecord ∧
      ∃ proof : Recovery, proof.operator = loneOperator ∧
        (loneRound.applyRecovery ⟨5, 3⟩ proof).2 = .ok .faulted := by
  have hchallenge : DelayClaim.challenge 4 4 0 ≠ 0 := by
    rw [DelayClaim.challenge, Octets.toNat, bytes_keccak256]
    decide +kernel
  have hp : DelayParams.check 5 3 = .ok ⟨5, 3⟩ := rfl
  obtain ⟨x, hx, -, -, hexists⟩ := honest_faulted_iff hp loneRound_holdsSealed
  obtain rfl := Except.ok.inj ((Puzzle.baseOf_eq_four (.inr rfl)).symm.trans hx)
  exact ⟨hp, loneRound_holdsSealed,
    hexists (by decide) (by decide) 4 (by decide) hchallenge loneSeal_negated⟩

/-- The honest seal of the only operator and a passing proof of the negated solution,
which makes the operator faulted. -/
theorem honest_faulted_five :
    loneRound.HoldsSealed ⟨5, 3⟩ loneCommitment .never loneRecord ∧
      DelayParams.check 5 3 = .ok ⟨5, 3⟩ ∧ Delay.evaluate 5 4 3 = .ok 1 ∧
      ∃ proof, DelayProof.generate ⟨5, 4, 4, 3, 1⟩ = .ok proof ∧
        (loneRound.applyRecovery ⟨5, 3⟩ ⟨1, loneOperator, loneCommitment.secret, proof⟩).2 =
          .ok .faulted := by
  obtain ⟨c, proof, hc, hgen, hfirst, hpasses⟩ :=
    DelayProof.negated_passes DelayClaim.challenge (n := 5) (x := 4) (y := 4) (t := 3) (by decide)
      (by decide) (by decide) (Delay.oddHalvings_ne_zero (by decide) (by decide)) (by decide)
  have hc' : DelayClaim.construct 5 4 4 3 = .ok ⟨5, 4, 4, 3, 1⟩ := by decide
  obtain rfl := Except.ok.inj (hc'.symm.trans hc)
  have h := loneRound_holdsSealed
  refine ⟨h, rfl, by decide, proof, hgen, ?_⟩
  rw [applyRecovery_faulted_iff h.closed h.going h.found h.unresolved]
  have hbase : (loneRecord.puzzle loneRound.id).base ⟨5, 3⟩ = .ok 4 :=
    Puzzle.baseOf_eq_four (.inr rfl)
  exact ⟨4, ⟨rfl, rfl, hpasses, _, hfirst, rfl, rfl, hbase, rfl⟩, loneSeal_negated⟩

end Round

end Beacon
