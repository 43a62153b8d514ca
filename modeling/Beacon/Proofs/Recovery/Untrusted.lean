import Beacon.Proofs.Delay.Answers
import Beacon.Proofs.Delay.Shape
import Beacon.Proofs.Recovery.Bases

/-
  Recoveries from anybody. A recovery may carry any proof, and so any modulus, but it is
  looked at only under the modulus of the parameters, which is not zero: the base of the
  puzzle exists, and the proof is then checked as any other. So a puzzle answers every
  recovery, by the secret or by an error that says what is wrong with the recovery or with
  the seal (`check_answered`), and no proof and no claim that anybody may send leads to
  arithmetic without a result (`untrusted_answered`).
-/

namespace Beacon

/-- The refusals of a recovery for a puzzle. Those of its proof concern that proof, and a
seal is convicted for the puzzle's own operator only. -/
def RecoveryError.Concerns (p : Puzzle) (params : DelayParams) (r : Recovery) :
    RecoveryError → Prop
  | .delay e => e.Concerns r.proof.claims.length
  | .identityMismatch => r.round ≠ p.round ∨ r.operator ≠ p.operator
  | .wrongPuzzle => ∃ first, r.proof.first? = some first ∧
      ¬(first.n = params.modulus ∧ first.t = params.delay ∧ p.base params = .ok first.x)
  | .inconsistentSeal round operator => round = p.round ∧ operator = p.operator
  | .wrongSecret => r.proof.check = .ok ()

namespace Puzzle

variable {p : Puzzle} {params : DelayParams} {r : Recovery}

/-- What a puzzle answers a recovery: the secret, or an error that concerns the recovery. -/
def Answered (p : Puzzle) (params : DelayParams) (r : Recovery) : Prop :=
  (∃ secret, p.check params r = .ok secret) ∨
    ∃ e, p.check params r = .error e ∧ e.Concerns p params r

theorem answered_of_proves {y : Nat} (h : p.Proves params r y) : p.Answered params r := by
  rw [Answered, check_of_proves h, opened]
  split
  · by_cases hs : r.secret = applySeal p.sealed y
    · exact .inl ⟨_, if_neg (not_not.mpr hs)⟩
    · exact .inr ⟨.wrongSecret, if_pos hs, h.passes⟩
  · exact .inr ⟨.inconsistentSeal p.round p.operator, rfl, rfl, rfl⟩

theorem check_answered (hN : 0 < params.modulus) (p : Puzzle) (r : Recovery) :
    p.Answered params r := by
  -- The checks in their order, each with its own refusal.
  by_cases hid : r.round ≠ p.round ∨ r.operator ≠ p.operator
  · exact .inr ⟨.identityMismatch, if_pos hid, hid⟩
  cases hfirst : r.proof.first? with
  | none =>
    refine .inr ⟨.delay .emptyProof, by simp only [check, if_neg hid, hfirst], ?_⟩
    exact congrArg List.length (List.head?_eq_none_iff.mp hfirst)
  | some first =>
  by_cases hparams : first.n ≠ params.modulus ∨ first.t ≠ params.delay
  · refine .inr ⟨.wrongPuzzle, by simp only [check, if_neg hid, hfirst, if_pos hparams],
      first, hfirst, ?_⟩
    rintro ⟨hn, ht, -⟩
    exact hparams.elim (absurd hn) (absurd ht)
  simp only [not_or, not_not] at hid hparams
  obtain ⟨x, hx⟩ : ∃ x, p.base params = .ok x := ⟨_, baseOf_eq hN⟩
  by_cases hbase : first.x = x
  · subst hbase
    rcases DelayProof.checkBy_answered DelayClaim.challenge r.proof with hpasses | ⟨e, he, hsays⟩
    · exact answered_of_proves
        ⟨hid.1, hid.2, hpasses, first, hfirst, hparams.1, hparams.2, hx, rfl⟩
    · have hrefused : r.proof.check = .error e := he
      refine .inr ⟨.delay e, ?_, hsays⟩
      simp only [check, hid, hfirst, hparams, hx, hrefused, bind, Except.bind, or_self,
        RecoveryError.ofDelay_ok, RecoveryError.ofDelay_error, ne_eq, not_true_eq_false, if_false]
  · refine .inr ⟨.wrongPuzzle,
      check_of_other_base hid.1 hid.2 hfirst hparams.1 hparams.2 hx hbase, first, hfirst, ?_⟩
    rintro ⟨-, -, hfirstx⟩
    exact hbase (Except.ok.inj (hfirstx.symm.trans hx))

/-- Nothing that anybody sends leads to arithmetic without a result or to a claim that is
not there. Every proof passes or is refused by an error that concerns it, and both claims of
every window that is checked are in it. Every claim has a proof or is refused as malformed.
And under checked parameters every puzzle gives the secret for a recovery or refuses it by
an error that concerns it. -/
theorem untrusted_answered :
    (∀ proof : DelayProof, DelayProof.Answered proof.claims.length proof.check ∧
      DelayProof.checkWindows DelayClaim.challenge 0 (DelayProof.windows 2 proof.claims) =
        some (DelayProof.checkChain DelayClaim.challenge 0 proof.claims)) ∧
    (∀ c : DelayClaim, (∃ proof, DelayProof.generate c = .ok proof) ∨
      DelayProof.generate c = .error (.malformedClaim 0)) ∧
    ∀ (N : Nat) (T : UInt64) (params : DelayParams), DelayParams.check N T = .ok params →
      ∀ (p : Puzzle) (r : Recovery), p.Answered params r := by
  refine ⟨fun proof => ?_, fun c => ?_, fun N T params hparams p r => ?_⟩
  · exact ⟨DelayProof.checkBy_answered _ proof, DelayProof.checkWindows_windows _ 0 _⟩
  · cases hwf : c.wellFormed with
    | false => exact .inr (DelayProof.generateBy_eq_error.mpr ⟨hwf, rfl⟩)
    | true =>
      obtain ⟨proof, hproof, -⟩ := DelayProof.generateBy_shaped DelayClaim.challenge hwf
      exact .inl ⟨proof, hproof⟩
  · obtain ⟨-, hN, rfl⟩ := DelayParams.check_eq_ok.mp hparams
    exact check_answered (Nat.zero_lt_of_lt hN) p r

def moduloZero : DelayProof := ⟨[⟨0, 0, 0, 1, 0⟩]⟩

/-- It is refused as malformed, by itself and in front of a second claim that would be halved
from it, and so is the recovery that carries it. -/
theorem untrusted_answered_zero :
    DelayParams.check 7 3 = .ok ⟨7, 3⟩ ∧ moduloZero.check = .error (.malformedClaim 0) ∧
      DelayProof.Answered 2 (DelayProof.check ⟨[⟨0, 0, 0, 2, 0⟩, ⟨0, 0, 0, 1, 0⟩]⟩) ∧
      DelayProof.generate ⟨0, 0, 0, 2, 0⟩ = .error (.malformedClaim 0) ∧
      (seventeenPuzzle 1).Answered ⟨7, 3⟩
        ⟨seventeen.round, seventeen.operator, seventeen.secret, moduloZero⟩ := by
  obtain ⟨hchecked, hproved, hrecovery⟩ := untrusted_answered
  have hparams : DelayParams.check 7 3 = .ok ⟨7, 3⟩ := rfl
  refine ⟨hparams, rfl, (hchecked _).1, (hproved _).resolve_left ?_, hrecovery 7 3 _ hparams _ _⟩
  rintro ⟨proof, hproof⟩
  cases hproof

end Puzzle

end Beacon
