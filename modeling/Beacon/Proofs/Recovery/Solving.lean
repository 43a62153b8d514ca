import Beacon.Proofs.Recovery.Seal

/-
  The truth about a seal. Every puzzle has one solution, and its seal is consistent if
  it opens the commitment under that one (`Puzzle.Consistent`). Solving the puzzle
  finds out which: a signal may stop it, but nothing makes it convict an operator
  whose seal is consistent (`not_consistent_of_solve`). Whoever solves an honestly
  sealed puzzle can hand in the secret (`solve_of_sealed`).

  Checking a recovery finds out the same as long as what it proves is the solution
  (`consistent_of_check`, `not_consistent_of_check`), and the recoveries that solving
  gives are of that kind (`truthful_of_solve`). So solving and checking agree on every
  puzzle, whether it was sealed honestly or not (`solve_check_agree`).
-/

namespace Beacon

namespace DelayProof

variable {params : DelayParams} {stop : Delay.StopSignal} {x : Nat}

theorem prove_never_of_prove {result : Nat × DelayProof} (hN : 0 < params.modulus)
    (h : prove params x stop = .ok result) : prove params x .never = .ok result := by
  simp only [prove, Delay.reduce_eq hN, bind, Except.bind] at h ⊢
  rw [Delay.evaluateUntil_never hN]
  split at h
  · cases h
  · rename_i y heval
    rw [Delay.evaluateUntil_eq_ok hN heval] at h
    exact h

end DelayProof

namespace Puzzle

def Solution (p : Puzzle) (params : DelayParams) (y : Nat) : Prop :=
  ∃ x, p.base params = .ok x ∧ y = x ^ 2 ^ params.delay.toNat % params.modulus

/-- The seal opens the commitment under the true solution. -/
def Consistent (p : Puzzle) (params : DelayParams) : Prop :=
  ∃ y, p.Solution params y ∧ secretOpens p.cvs (applySeal p.sealed y) = true

/-- What the recovery proves of this puzzle, if it proves anything, is its solution. -/
def Truthful (p : Puzzle) (params : DelayParams) (r : Recovery) : Prop :=
  ∀ y, p.Proves params r y → p.Solution params y

variable {p : Puzzle} {params : DelayParams} {stop : Delay.StopSignal} {y z : Nat}

theorem Solution.unique (hy : p.Solution params y) (hz : p.Solution params z) : y = z := by
  obtain ⟨x, hx, rfl⟩ := hy
  obtain ⟨x', hx', rfl⟩ := hz
  rw [hx] at hx'
  rw [Except.ok.inj hx']

theorem consistent_iff (hy : p.Solution params y) :
    p.Consistent params ↔ secretOpens p.cvs (applySeal p.sealed y) = true := by
  constructor
  · rintro ⟨z, hz, hopens⟩
    rwa [hy.unique hz]
  · exact fun h => ⟨y, hy, h⟩

/-! ## Solving -/

theorem solve_of_prove {x : Nat} {proof : DelayProof} (hx : p.base params = .ok x)
    (h : DelayProof.prove params x stop = .ok (y, proof)) :
    p.solve params stop = (p.opened y).map fun secret =>
      { round := p.round, operator := p.operator, secret, proof } := by
  simp only [solve, hx, h, bind, Except.bind, RecoveryError.ofDelay_ok]
  cases p.opened y <;> rfl

/-- A signal can stop the solving, but not change what it finds. -/
theorem solve_stopped_or (p : Puzzle) (stop : Delay.StopSignal) (hN : 0 < params.modulus) :
    (∃ e, p.solve params stop = .error (.delay e)) ∨
      p.solve params stop = p.solve params .never := by
  obtain ⟨x, hx⟩ : ∃ x, p.base params = .ok x := ⟨_, baseOf_eq hN⟩
  cases hprove : DelayProof.prove params x stop with
  | error e =>
    refine .inl ⟨e, ?_⟩
    simp only [solve, hx, hprove, bind, Except.bind, RecoveryError.ofDelay_error]
  | ok result =>
    refine .inr ?_
    rw [solve_of_prove hx hprove, solve_of_prove hx (DelayProof.prove_never_of_prove hN hprove)]

/-- What solving a puzzle comes to if nobody stops it: the seal is opened under the
true solution, which comes with a passing proof. -/
theorem solve_never (p : Puzzle) (hN : 0 < params.modulus) (ht : params.delay ≠ 0) :
    ∃ x y v proof, p.base params = .ok x ∧ y = x ^ 2 ^ params.delay.toNat % params.modulus ∧
      (p.solve params .never = (p.opened y).map fun secret =>
        { round := p.round, operator := p.operator, secret, proof }) ∧
      proof.first? = some ⟨params.modulus, x % params.modulus, y, params.delay, v⟩ ∧
      proof.check = .ok () := by
  obtain ⟨x, hx⟩ : ∃ x, p.base params = .ok x := ⟨_, baseOf_eq hN⟩
  obtain ⟨proof, hprove, hfirst, hpasses⟩ := DelayProof.prove_passes hN ht x
  exact ⟨x, _, _, proof, hx, rfl, solve_of_prove hx hprove, hfirst, hpasses⟩

theorem solve_never_of_not_consistent (hN : 0 < params.modulus) (ht : params.delay ≠ 0)
    (h : ¬p.Consistent params) :
    p.solve params .never = .error (.inconsistentSeal p.round p.operator) := by
  obtain ⟨x, y, v, proof, hx, hy, hsolve, -⟩ := p.solve_never hN ht
  rw [consistent_iff ⟨x, hx, hy⟩] at h
  rw [hsolve, opened, if_neg h]
  rfl

theorem not_consistent_of_solve {e : RecoveryError} (hN : 0 < params.modulus)
    (ht : params.delay ≠ 0) (h : p.solve params stop = .error e) (hfault : e.isFault = true) :
    ¬p.Consistent params := by
  rcases p.solve_stopped_or stop hN with ⟨d, hd⟩ | hnever
  · rw [hd] at h
    cases h
    cases hfault
  · obtain ⟨x, y, v, proof, hx, hy, hsolve, -⟩ := p.solve_never hN ht
    rw [consistent_iff ⟨x, hx, hy⟩]
    rw [hnever, hsolve, opened] at h
    split at h
    · cases h
    · assumption

theorem truthful_of_solve {r : Recovery} (hN : 0 < params.modulus) (ht : params.delay ≠ 0)
    (h : p.solve params stop = .ok r) (q : Puzzle) : q.Truthful params r := by
  rcases p.solve_stopped_or stop hN with ⟨d, hd⟩ | hnever
  · rw [hd] at h
    cases h
  · obtain ⟨x, y, v, proof, hx, rfl, hsolve, hfirst, -⟩ := p.solve_never hN ht
    rw [hnever, hsolve, opened] at h
    split at h
    · cases h
      rintro y ⟨-, -, -, first, hfirst', -, -, hbase, rfl⟩
      obtain rfl := Option.some.inj (hfirst.symm.trans hfirst')
      exact ⟨_, hbase, Nat.pow_mod x _ _⟩
    · cases h

/-! ## Checking -/

variable {r : Recovery}

theorem consistent_of_check {secret : Word} (htrue : p.Truthful params r)
    (h : p.check params r = .ok secret) : p.Consistent params := by
  obtain ⟨⟨y, hproves, rfl⟩, hopens, -⟩ := check_eq_ok.mp h
  exact ⟨y, htrue y hproves, hopens⟩

theorem not_consistent_of_check {e : RecoveryError} (htrue : p.Truthful params r)
    (h : p.check params r = .error e) (hfault : e.isFault = true) : ¬p.Consistent params := by
  obtain ⟨y, hproves, hopens⟩ := check_eq_fault.mp ⟨e, h, hfault⟩
  rw [consistent_iff (htrue y hproves), hopens]
  exact Bool.false_ne_true

/-! ## Solving and checking -/

/-- What is proved from the base of a puzzle is its solution, and whoever names a secret
with this proof hands in a recovery of the puzzle. -/
theorem exists_proved (p : Puzzle) (hN : 4 < params.modulus) (ht : params.delay ≠ 0) :
    ∃ x y proof, p.base params = .ok x ∧ DelayProof.prove params x .never = .ok (y, proof) ∧
      p.Solution params y ∧ ∀ secret, p.Proves params ⟨p.round, p.operator, secret, proof⟩ y := by
  have hpos : 0 < params.modulus := by omega
  obtain ⟨x, hx⟩ : ∃ x, p.base params = .ok x := ⟨_, baseOf_eq hpos⟩
  obtain ⟨proof, hprove, hfirst, hpasses⟩ := DelayProof.prove_passes hpos ht x
  -- The base is a remainder already, so the first claim is about it.
  rw [Nat.mod_eq_of_lt (baseOf_lt hN hx)] at hfirst
  exact ⟨x, _, proof, hx, hprove, ⟨x, hx, rfl⟩,
    fun _ => ⟨rfl, rfl, hpasses, _, hfirst, rfl, rfl, hx, rfl⟩⟩

theorem solve_of_sealed {c : Commitment} {sealed : Word} (hN : 4 < params.modulus)
    (ht : params.delay ≠ 0) (hsealed : sealSecret params c stop = .ok sealed)
    (hopens : secretOpens c.cvs c.secret = true) :
    ∃ proof, solve ⟨c.round, c.operator, c.cvs, sealed⟩ params .never =
        .ok ⟨c.round, c.operator, c.secret, proof⟩ ∧
      check ⟨c.round, c.operator, c.cvs, sealed⟩ params ⟨c.round, c.operator, c.secret, proof⟩ =
        .ok c.secret := by
  obtain ⟨x, y, proof, hx, hprove, hsolution, hproves⟩ :=
    exists_proved ⟨c.round, c.operator, c.cvs, sealed⟩ hN ht
  obtain ⟨x', hx', hseal⟩ := sealSecret_eq_ok (by omega) hsealed
  obtain rfl := hsolution.unique ⟨x', hx', rfl⟩
  subst hseal
  have hsolve := solve_of_prove hx hprove
  rw [opened, applySeal_applySeal, if_pos hopens] at hsolve
  exact ⟨proof, hsolve, check_eq_ok.mpr ⟨⟨_, hproves _, applySeal_applySeal _ _⟩, hopens, rfl⟩⟩

theorem sealSecret_never (hN : 0 < params.modulus) (c : Commitment) :
    ∃ sealed, sealSecret params c .never = .ok sealed := by
  obtain ⟨x, hx⟩ : ∃ x, baseOf params.modulus c.round c.operator c.cvs = .ok x :=
    ⟨_, baseOf_eq hN⟩
  refine ⟨applySeal c.secret (x ^ 2 ^ params.delay.toNat % params.modulus), ?_⟩
  simp only [sealSecret, hx, Delay.evaluateUntil_never hN, bind, Except.bind, pure, Except.pure]
  rfl

theorem solve_never_cases (p : Puzzle) (hN : 4 < params.modulus) (ht : params.delay ≠ 0) :
    (∃ r, p.solve params .never = .ok r) ∨
      p.solve params .never = .error (.inconsistentSeal p.round p.operator) := by
  obtain ⟨x, y, proof, hx, hprove, -, -⟩ := p.exists_proved hN ht
  rw [solve_of_prove hx hprove, opened]
  split
  · exact .inl ⟨_, rfl⟩
  · exact .inr rfl

/-- The recovery that solving gives is accepted. -/
theorem check_of_solve (hN : 4 < params.modulus) (ht : params.delay ≠ 0)
    (h : p.solve params .never = .ok r) : p.check params r = .ok r.secret := by
  obtain ⟨x, y, proof, hx, hprove, -, hproves⟩ := p.exists_proved hN ht
  rw [solve_of_prove hx hprove, opened] at h
  split at h
  · rename_i hopens
    cases h
    exact check_eq_ok.mpr ⟨⟨y, hproves _, rfl⟩, hopens, rfl⟩
  · cases h

/-- Where solving convicts, so does checking, whatever secret is named. -/
theorem check_of_convicted {e : RecoveryError} (hN : 4 < params.modulus)
    (ht : params.delay ≠ 0) (h : p.solve params .never = .error e) :
    ∃ x y proof, p.base params = .ok x ∧ DelayProof.prove params x .never = .ok (y, proof) ∧
      ∀ secret, p.check params ⟨p.round, p.operator, secret, proof⟩ = .error e := by
  obtain ⟨x, y, proof, hx, hprove, -, hproves⟩ := p.exists_proved hN ht
  rw [solve_of_prove hx hprove, opened] at h
  split at h
  · cases h
  · rename_i hopens
    cases h
    refine ⟨x, y, proof, hx, hprove, fun secret => ?_⟩
    rw [check_of_proves (hproves secret), opened, if_neg hopens]
    rfl

/-- Solving any puzzle, honest or not, ends with a recovery or a conviction. The recovery
is accepted; and if it is a conviction, then whatever secret is named with a proof from
the puzzle's base, checking convicts the same operator. An honestly sealed secret is
what solving finds. -/
theorem solve_check_agree (hN : 4 < params.modulus) (ht : params.delay ≠ 0) :
    (∀ p : Puzzle,
      (∀ r, p.solve params .never = .ok r → p.check params r = .ok r.secret) ∧
      (∀ round operator, p.solve params .never = .error (.inconsistentSeal round operator) →
        ∃ x y proof, p.base params = .ok x ∧ DelayProof.prove params x .never = .ok (y, proof) ∧
          ∀ secret, p.check params ⟨p.round, p.operator, secret, proof⟩ =
            .error (.inconsistentSeal round operator)) ∧
      ((∃ r, p.solve params .never = .ok r) ∨
        p.solve params .never = .error (.inconsistentSeal p.round p.operator))) ∧
    ∀ round operator secret stop sealed,
      sealSecret params (.ofSecret round operator secret) stop = .ok sealed →
      ∃ r, solve ⟨round, operator, (Commitment.ofSecret round operator secret).cvs, sealed⟩ params
        .never = .ok r ∧ r.secret = secret := by
  refine ⟨fun p => ⟨fun r => check_of_solve hN ht, fun _ _ => check_of_convicted hN ht,
    p.solve_never_cases hN ht⟩, fun round operator secret stop sealed hsealed => ?_⟩
  obtain ⟨proof, hsolve, -⟩ := solve_of_sealed hN ht hsealed (secretOpens_iff.mpr rfl)
  exact ⟨_, hsolve, rfl⟩

theorem solve_check_agree_five :
    ∃ (operator : Address) (c : Commitment) (sealed : Word) (r : Recovery),
      4 < 5 ∧ (3 : UInt64) ≠ 0 ∧ c = .ofSecret 1 operator Word.zero ∧
      sealSecret ⟨5, 3⟩ c .never = .ok sealed ∧
      solve ⟨1, operator, c.cvs, sealed⟩ ⟨5, 3⟩ .never = .ok r ∧ r.secret = Word.zero ∧
      check ⟨1, operator, c.cvs, sealed⟩ ⟨5, 3⟩ r = .ok Word.zero := by
  let operator : Address := ⟨⟨List.replicate 20 0x01, rfl⟩⟩
  let params : DelayParams := ⟨5, 3⟩
  have hN : 4 < params.modulus := by decide
  have ht : params.delay ≠ 0 := by decide
  obtain ⟨sealed, hsealed⟩ :=
    sealSecret_never (Nat.zero_lt_of_lt hN) (.ofSecret 1 operator Word.zero)
  obtain ⟨hagree, hhonest⟩ := solve_check_agree hN ht
  obtain ⟨r, hsolve, hsecret⟩ := hhonest 1 operator Word.zero .never sealed hsealed
  have hcheck := (hagree _).1 r hsolve
  rw [hsecret] at hcheck
  exact ⟨operator, _, sealed, r, hN, ht, rfl, hsealed, hsolve, hsecret, hcheck⟩

end Puzzle

end Beacon
