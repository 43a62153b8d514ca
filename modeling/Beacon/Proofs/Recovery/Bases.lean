import Beacon.Proofs.Recovery.Solving

/-
  Where puzzles start. The base of a puzzle is never 0 or 1, which squaring leaves
  alone, and it is a remainder for every modulus that parameters may have but the
  smallest. Every square modulo 4 is 0 or 1, so there the base is the constant 4 that
  stands in for them, and 4 is no remainder modulo 4.

  A proof starts from the remainder of the base. So the recovery that solving gives
  starts from the puzzle for every other modulus, and is accepted there, while modulo 4
  it is refused (`base_canonical_iff`): nobody can hand in a withheld secret.
-/

namespace Beacon

namespace Puzzle

variable {N : Nat} {T : UInt64} {params : DelayParams} {p : Puzzle} {stop : Delay.StopSignal}
  {r : Recovery} {x : Nat}

theorem two_le_base (hN : 0 < params.modulus) (h : p.base params = .ok x) : 2 ≤ x := by
  rw [base, baseOf_eq hN] at h
  obtain rfl := Except.ok.inj h
  split
  · decide
  · rename_i hlt
    exact Nat.le_of_not_lt hlt

theorem solve_never_of_solve (hN : 0 < params.modulus) (h : p.solve params stop = .ok r) :
    p.solve params .never = .ok r := by
  rcases p.solve_stopped_or stop hN with ⟨e, he⟩ | hnever
  · rw [he] at h
    cases h
  · exact hnever ▸ h

/-- The recovery that solving gives is about the puzzle, and its proof starts from the
remainder of the puzzle's base. -/
theorem first_of_solve (hN : 0 < params.modulus) (ht : params.delay ≠ 0)
    (hx : p.base params = .ok x) (h : p.solve params stop = .ok r) :
    r.round = p.round ∧ r.operator = p.operator ∧
      ∃ y v, r.proof.first? = some ⟨params.modulus, x % params.modulus, y, params.delay, v⟩ := by
  obtain ⟨x', y, v, proof, hx', -, hsolve, hfirst, -⟩ := p.solve_never hN ht
  obtain rfl := Except.ok.inj (hx.symm.trans hx')
  rw [solve_never_of_solve hN h, opened] at hsolve
  split at hsolve
  · obtain rfl := Except.ok.inj hsolve
    exact ⟨rfl, rfl, y, v, hfirst⟩
  · cases hsolve

theorem check_of_other_base {first : DelayClaim} (hround : r.round = p.round)
    (hoperator : r.operator = p.operator) (hfirst : r.proof.first? = some first)
    (hn : first.n = params.modulus) (ht : first.t = params.delay) (hx : p.base params = .ok x)
    (hne : first.x ≠ x) : p.check params r = .error .wrongPuzzle := by
  rw [check, if_neg (by simp [hround, hoperator]), hfirst]
  simp only [hn, ht, ne_eq, not_true_eq_false, or_self, if_false, hx, RecoveryError.ofDelay_ok,
    bind, Except.bind]
  rw [if_pos hne]
  rfl

/-- With the modulus 4, the recovery that solving gives does not start from the puzzle. -/
theorem check_of_solve_four (hN : params.modulus = 4) (ht : params.delay ≠ 0)
    (h : p.solve params stop = .ok r) : p.check params r = .error .wrongPuzzle := by
  have hpos : 0 < params.modulus := by omega
  have hx : p.base params = .ok 4 := baseOf_eq_four (.inl hN)
  obtain ⟨hround, hoperator, y, v, hfirst⟩ := first_of_solve hpos ht hx h
  have hne : 4 % params.modulus ≠ 4 := by
    rw [hN]
    decide
  exact check_of_other_base hround hoperator hfirst rfl rfl hx hne

/-- Under checked parameters every puzzle has a base of at least two. It is a remainder,
so that proving leaves it as it is, for every modulus but 4. For those the recovery that
solving gives is accepted, while modulo 4 it is refused. -/
theorem base_canonical_iff (hparams : DelayParams.check N T = .ok params) (p : Puzzle) :
    ∃ x, p.base params = .ok x ∧ 2 ≤ x ∧ (x < N ↔ N ≠ 4) ∧ (Delay.reduce x N = .ok x ↔ N ≠ 4) ∧
      ∀ stop r, p.solve params stop = .ok r →
        (p.check params r = .error .wrongPuzzle ↔ N = 4) ∧
          (N ≠ 4 → p.check params r = .ok r.secret) := by
  obtain ⟨hT, hN, rfl⟩ := DelayParams.check_eq_ok.mp hparams
  have hpos : 0 < N := by omega
  obtain ⟨x, hx⟩ : ∃ x, p.base ⟨N, T⟩ = .ok x := ⟨_, baseOf_eq hpos⟩
  have hlt : x < N ↔ N ≠ 4 := by
    constructor
    · rintro hlt rfl
      obtain rfl := Except.ok.inj ((baseOf_eq_four (.inl rfl)).symm.trans hx)
      exact absurd hlt (by decide)
    · intro hne
      exact baseOf_lt (by omega) hx
  have hreduce : Delay.reduce x N = .ok x ↔ x < N := by
    rw [Delay.reduce_eq hpos, Except.ok.injEq]
    exact Nat.mod_eq_iff_lt (by omega)
  refine ⟨x, hx, two_le_base hpos hx, hlt, hreduce.trans hlt, fun stop r hsolve => ?_⟩
  have haccepted : N ≠ 4 → p.check ⟨N, T⟩ r = .ok r.secret := fun hne =>
    check_of_solve (show 4 < N by omega) hT (solve_never_of_solve hpos hsolve)
  refine ⟨⟨fun hwrong => ?_, ?_⟩, haccepted⟩
  · by_contra hne
    rw [haccepted hne] at hwrong
    cases hwrong
  · rintro rfl
    exact check_of_solve_four rfl hT hsolve

theorem exists_solve_of_sealed {c : Commitment} {sealed : Word} (hN : 0 < params.modulus)
    (ht : params.delay ≠ 0) (hsealed : sealSecret params c stop = .ok sealed)
    (hopens : secretOpens c.cvs c.secret = true) :
    ∃ r, solve ⟨c.round, c.operator, c.cvs, sealed⟩ params .never = .ok r ∧
      r.secret = c.secret := by
  obtain ⟨x, y, v, proof, hx, rfl, hsolve, -⟩ :=
    solve_never ⟨c.round, c.operator, c.cvs, sealed⟩ hN ht
  obtain ⟨x', hx', rfl⟩ := sealSecret_eq_ok hN hsealed
  obtain rfl := Except.ok.inj (hx.symm.trans hx')
  rw [opened, applySeal_applySeal, if_pos hopens] at hsolve
  exact ⟨_, hsolve, rfl⟩

def seventeen : Commitment := .ofSecret 1 ⟨⟨List.replicate 20 0x02, rfl⟩⟩ (.ofUInt64 17)

/-- The puzzle of that commitment, sealed under a solution. -/
def seventeenPuzzle (y : Nat) : Puzzle :=
  ⟨seventeen.round, seventeen.operator, seventeen.cvs, applySeal seventeen.secret y⟩

/-- Modulo 5 the base is the largest remainder, and what solving gives is accepted. -/
theorem base_canonical_iff_five :
    DelayParams.check 5 3 = .ok ⟨5, 3⟩ ∧ (seventeenPuzzle 1).base ⟨5, 3⟩ = .ok 4 ∧
      Delay.reduce 4 5 = .ok 4 ∧
      ∃ r, (seventeenPuzzle 1).solve ⟨5, 3⟩ .never = .ok r ∧ r.secret = seventeen.secret ∧
        (seventeenPuzzle 1).check ⟨5, 3⟩ r = .ok seventeen.secret := by
  have hparams : DelayParams.check 5 3 = .ok ⟨5, 3⟩ := rfl
  have hbase : (seventeenPuzzle 1).base ⟨5, 3⟩ = .ok 4 := baseOf_eq_four (.inr rfl)
  have hsealed : sealSecret ⟨5, 3⟩ seventeen .never = .ok (applySeal seventeen.secret 1) := by
    rw [sealSecret, baseOf_eq_four (.inr rfl)]
    rfl
  obtain ⟨x, hx, -, -, hreduce, hsolved⟩ := base_canonical_iff hparams (seventeenPuzzle 1)
  obtain rfl := Except.ok.inj (hbase.symm.trans hx)
  obtain ⟨r, hsolve, hsecret⟩ := exists_solve_of_sealed (show 0 < 5 by decide)
    (show (3 : UInt64) ≠ 0 by decide) hsealed (secretOpens_iff.mpr rfl)
  have hcheck := (hsolved .never r hsolve).2 (by decide)
  rw [hsecret] at hcheck
  exact ⟨hparams, hbase, hreduce.mpr (by decide), r, hsolve, hsecret, hcheck⟩

/-- Modulo 4 the base is 4, which is reduced to zero, and the recovery of an honestly
sealed secret that solving gives is refused. -/
theorem solved_refused_four :
    DelayParams.check 4 1 = .ok ⟨4, 1⟩ ∧ (seventeenPuzzle 0).base ⟨4, 1⟩ = .ok 4 ∧ ¬4 < 4 ∧
      Delay.reduce 4 4 = .ok 0 ∧
      sealSecret ⟨4, 1⟩ seventeen .never = .ok (seventeenPuzzle 0).sealed ∧
      ∃ r, (seventeenPuzzle 0).solve ⟨4, 1⟩ .never = .ok r ∧ r.secret = seventeen.secret ∧
        (seventeenPuzzle 0).check ⟨4, 1⟩ r = .error .wrongPuzzle := by
  have hsealed : sealSecret ⟨4, 1⟩ seventeen .never = .ok (seventeenPuzzle 0).sealed := by
    rw [sealSecret, baseOf_eq_four (.inl rfl)]
    rfl
  obtain ⟨r, hsolve, hsecret⟩ := exists_solve_of_sealed (show 0 < 4 by decide)
    (show (1 : UInt64) ≠ 0 by decide) hsealed (secretOpens_iff.mpr rfl)
  exact ⟨rfl, baseOf_eq_four (.inl rfl), by decide, by decide, hsealed, r, hsolve, hsecret,
    check_of_solve_four rfl (by decide) hsolve⟩

end Puzzle

end Beacon
