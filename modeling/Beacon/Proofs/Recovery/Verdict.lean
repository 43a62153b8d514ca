import Beacon.Recovery
import Mathlib.Logic.Basic

/-
  The verdict on a recovery. A recovery that names the puzzle's round and operator
  and carries a passing proof from the puzzle's own base (`Puzzle.Proves`) is judged
  by one thing only, the word that its result uncovers under the seal: it is
  accepted if the word opens the commitment and is the secret named
  (`check_eq_ok`), and it convicts the operator if the word does not open the
  commitment (`check_eq_fault`). Every other recovery is refused, and says nothing
  about the operator (`proves_or_refused`).
-/

namespace Beacon

theorem secretOpens_iff {cvs secret : Word} :
    secretOpens cvs secret = true ↔ secondStage (firstStage secret) = cvs := by
  simp [secretOpens, cosOpens]

namespace Puzzle

variable {p : Puzzle} {params : DelayParams} {r : Recovery} {y : Nat}

/-- A recovery of the puzzle's operator whose proof passes and starts from the
puzzle's base, with the result `y`. -/
structure Proves (p : Puzzle) (params : DelayParams) (r : Recovery) (y : Nat) : Prop where
  round_eq : r.round = p.round
  operator_eq : r.operator = p.operator
  passes : r.proof.check = .ok ()
  starts : ∃ first, r.proof.first? = some first ∧ first.n = params.modulus ∧
    first.t = params.delay ∧ p.base params = .ok first.x ∧ first.y = y

/-- A recovery that proves a result is judged by the word this result uncovers. -/
theorem check_of_proves (h : p.Proves params r y) :
    p.check params r =
      (p.opened y).bind fun secret =>
        if r.secret ≠ secret then .error .wrongSecret else .ok secret := by
  obtain ⟨hround, hoperator, hpasses, first, hfirst, hn, ht, hbase, rfl⟩ := h
  simp only [check, hround, hoperator, hfirst, hn, ht, hbase, hpasses, ne_eq, not_true_eq_false,
    or_self, if_false, bind, Except.bind, RecoveryError.ofDelay_ok]
  cases p.opened first.y with
  | error e => rfl
  | ok secret =>
    by_cases hs : r.secret = secret
    · simp [hs, pure, Except.pure]
    · simp [hs, throw, throwThe, MonadExceptOf.throw]

/-- A recovery that proves nothing about the puzzle is refused without a verdict on
the operator. -/
theorem proves_or_refused (p : Puzzle) (params : DelayParams) (r : Recovery) :
    (∃ y, p.Proves params r y) ∨ ∃ e, p.check params r = .error e ∧ e.isFault = false := by
  -- The checks in their order: each that fails refuses with its own error.
  by_cases hid : r.round ≠ p.round ∨ r.operator ≠ p.operator
  · exact .inr ⟨.identityMismatch, by rw [check, if_pos hid], rfl⟩
  cases hfirst : r.proof.first? with
  | none => exact .inr ⟨.delay .emptyProof, by simp only [check, if_neg hid, hfirst], rfl⟩
  | some first =>
  by_cases hparams : first.n ≠ params.modulus ∨ first.t ≠ params.delay
  · exact .inr ⟨.wrongPuzzle, by simp only [check, if_neg hid, hfirst, if_pos hparams], rfl⟩
  cases hbase : p.base params with
  | error e =>
    refine .inr ⟨.delay e, ?_, rfl⟩
    simp only [check, if_neg hid, hfirst, if_neg hparams, hbase]
    rfl
  | ok x =>
  by_cases hx : first.x = x
  · subst hx
    cases hpasses : r.proof.check with
    | error e =>
      refine .inr ⟨.delay e, ?_, rfl⟩
      simp only [check, if_neg hid, hfirst, if_neg hparams, hbase, hpasses, bind, Except.bind,
        RecoveryError.ofDelay_ok, RecoveryError.ofDelay_error, ne_eq, not_true_eq_false, if_false]
    | ok _ =>
      simp only [not_or, not_not] at hid hparams
      exact .inl ⟨first.y, hid.1, hid.2, hpasses, first, hfirst, hparams.1, hparams.2, hbase, rfl⟩
  · refine .inr ⟨.wrongPuzzle, ?_, rfl⟩
    simp only [check, if_neg hid, hfirst, if_neg hparams, hbase, bind, Except.bind,
      RecoveryError.ofDelay_ok, ne_eq, hx, not_false_eq_true, if_true]
    rfl

/-- A recovery is accepted exactly if it proves a result under which the seal opens
to the committed secret, and names that secret. -/
theorem check_eq_ok {secret : Word} :
    p.check params r = .ok secret ↔
      (∃ y, p.Proves params r y ∧ applySeal p.sealed y = secret) ∧
        secretOpens p.cvs secret = true ∧ r.secret = secret := by
  constructor
  · intro h
    rcases proves_or_refused p params r with ⟨y, hy⟩ | ⟨e, he, _⟩
    · rw [check_of_proves hy, opened] at h
      split at h
      · rename_i hopens
        simp only [Except.bind] at h
        split at h
        · cases h
        · rename_i hs
          cases h
          exact ⟨⟨y, hy, rfl⟩, hopens, not_not.mp hs⟩
      · cases h
    · rw [he] at h
      cases h
  · rintro ⟨⟨y, hy, rfl⟩, hopens, hs⟩
    simp [check_of_proves hy, opened, hopens, hs, Except.bind]

/-- A recovery convicts the operator exactly if it proves a result under which the
seal does not open to the committed secret. -/
theorem check_eq_fault :
    (∃ e, p.check params r = .error e ∧ e.isFault = true) ↔
      ∃ y, p.Proves params r y ∧ secretOpens p.cvs (applySeal p.sealed y) = false := by
  constructor
  · intro ⟨e, he, hfault⟩
    rcases proves_or_refused p params r with ⟨y, hy⟩ | ⟨e', he', hrefused⟩
    · refine ⟨y, hy, ?_⟩
      rw [check_of_proves hy, opened] at he
      split at he
      · simp only [Except.bind] at he
        split at he <;> cases he
        cases hfault
      · rename_i hopens
        simpa using hopens
    · rw [he] at he'
      cases he'
      exact absurd hfault (by simp [hrefused])
  · intro ⟨y, hy, hopens⟩
    exact ⟨.inconsistentSeal p.round p.operator,
      by simp [check_of_proves hy, opened, hopens, Except.bind], rfl⟩

end Puzzle

end Beacon
