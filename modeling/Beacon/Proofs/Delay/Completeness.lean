import Beacon.Proofs.Delay.Halving

/-
  Honest proofs pass. The proof of a true claim is a chain of true midpoints, and such
  a chain passes under any rule for challenges (`generateBy_passes`). The proof that
  comes with an evaluation of the delay function is the proof of such a claim, with
  its first midpoint computed (`prove_passes`).
-/

namespace Beacon

namespace DelayParams

theorem check_eq_ok {N : Nat} {T : UInt64} {params : DelayParams} :
    check N T = .ok params ↔ T ≠ 0 ∧ 3 < N ∧ params = ⟨N, T⟩ := by
  rw [check]
  split
  · rename_i h
    exact ⟨nofun, fun h' => absurd h h'.1⟩
  split
  · rename_i h
    exact ⟨nofun, fun h' => absurd h'.2.1 (Nat.not_lt.mpr h)⟩
  · rename_i hT hN
    exact ⟨fun h => ⟨hT, Nat.not_le.mp hN, (Except.ok.inj h).symm⟩, fun h => by rw [h.2.2]⟩

end DelayParams

namespace DelayProof

/-- The proof of a true claim with a true midpoint passes, whatever its challenges. -/
theorem generateBy_passes (rule : ChallengeRule) {c : DelayClaim} (hwf : c.wellFormed = true)
    (hmid : c.Midway) (hc : c.Holds) :
    ∃ p, generateBy rule c = .ok p ∧ p.first? = some c ∧ p.checkBy rule = .ok () := by
  obtain ⟨rest, hgen, hmade⟩ := generateBy_made rule hwf
  exact ⟨⟨c :: rest⟩, hgen, rfl, checkBy_cons.mpr (hmade.accepted hmid hc)⟩

theorem evaluate_passes (rule : ChallengeRule) {n x : Nat} {t : UInt64} (hx : x < n)
    (ht : t ≠ 0) :
    ∃ y c p, Delay.evaluate n x t = .ok y ∧ DelayClaim.construct n x y t = .ok c ∧
      generateBy rule c = .ok p ∧ p.checkBy rule = .ok () := by
  have hn : 0 < n := by omega
  have heval := Delay.evaluate_eq hn x t
  obtain ⟨c, hc, hwf, hmid, hcn, hcx, hcy, hct⟩ :=
    DelayClaim.construct_spec ht hx (Nat.mod_lt (x ^ 2 ^ t.toNat) hn)
  have hholds : c.Holds := by rw [DelayClaim.Holds, hcn, hcx, hcy, hct]
  obtain ⟨p, hp, -, hpasses⟩ := generateBy_passes rule hwf hmid hholds
  exact ⟨_, c, p, heval, hc, hp, hpasses⟩

theorem prove_passes {params : DelayParams} (hn : 0 < params.modulus) (ht : params.delay ≠ 0)
    (x : Nat) :
    ∃ proof, prove params x .never = .ok (x ^ 2 ^ params.delay.toNat % params.modulus, proof) ∧
      proof.first? = some ⟨params.modulus, x % params.modulus,
        x ^ 2 ^ params.delay.toNat % params.modulus, params.delay,
        x ^ 2 ^ ((params.delay.toNat + 1) / 2) % params.modulus⟩ ∧
      proof.check = .ok () := by
  have hx := Nat.mod_lt x hn
  have hy := Nat.mod_lt (x ^ 2 ^ params.delay.toNat) hn
  have heval := Delay.evaluateUntil_never hn (x % params.modulus) params.delay
  have hc := DelayClaim.construct_eq ht hx hy
  obtain ⟨c, hc', hwf, hmid, hcn, hcx, hcy, hct⟩ := DelayClaim.construct_spec ht hx hy
  -- The base is reduced before anything is raised to a power.
  have hholds : c.Holds := by rw [DelayClaim.Holds, hcn, hcx, hcy, hct, ← Nat.pow_mod]
  rw [← Nat.pow_mod] at heval hc
  rw [Delay.toNat_half] at hc
  obtain rfl := Except.ok.inj (hc.symm.trans hc')
  obtain ⟨proof, hproof, hfirst, hpasses⟩ :=
    generateBy_passes DelayClaim.challenge hwf hmid hholds
  refine ⟨proof, ?_, hfirst, hpasses⟩
  simp only [prove, Delay.reduce_eq hn, heval, hc, generate, hproof, bind, Except.bind, pure,
    Except.pure]

/-- Proving an evaluation under checked parameters gives the true result and a proof
of it that passes, from the claim with the true midpoint on. And the proof of any
evaluation passes, whatever values the challenges take. -/
theorem honest_proofs_pass {N : Nat} {T : UInt64} {params : DelayParams}
    (h : DelayParams.check N T = .ok params) (x : Nat) :
    (∃ y proof, prove params x .never = .ok (y, proof) ∧ y = x ^ 2 ^ T.toNat % N ∧
      proof.first? = some ⟨N, x % N, y, T, x ^ 2 ^ ((T.toNat + 1) / 2) % N⟩ ∧
      proof.check = .ok ()) ∧
    ∀ (rule : ChallengeRule) (n x : Nat) (t : UInt64), 0 < n → x < n → 1 ≤ t →
      ∃ y c p, Delay.evaluate n x t = .ok y ∧ DelayClaim.construct n x y t = .ok c ∧
        generateBy rule c = .ok p ∧ p.checkBy rule = .ok () := by
  obtain ⟨hT, hN, rfl⟩ := DelayParams.check_eq_ok.mp h
  constructor
  · obtain ⟨proof, hproof, hfirst, hpasses⟩ := @prove_passes ⟨N, T⟩ (Nat.zero_lt_of_lt hN) hT x
    exact ⟨_, proof, hproof, rfl, hfirst, hpasses⟩
  · intro rule n x t _ hx ht
    have ht0 : t ≠ 0 := by
      intro h
      rw [h] at ht
      exact absurd ht (by decide)
    exact evaluate_passes rule hx ht0

/-- An odd delay modulo a prime, with a rule that always draws the same challenge. -/
theorem honest_proofs_pass_seven :
    DelayParams.check 7 3 = .ok ⟨7, 3⟩ ∧
      (∃ y proof, prove ⟨7, 3⟩ 10 .never = .ok (y, proof) ∧ y = 2 ∧
        proof.first? = some ⟨7, 3, 2, 3, 4⟩ ∧ proof.check = .ok ()) ∧
      ∃ y c p, Delay.evaluate 7 3 3 = .ok y ∧ DelayClaim.construct 7 3 y 3 = .ok c ∧
        generateBy (fun _ _ _ => 5) c = .ok p ∧ p.checkBy (fun _ _ _ => 5) = .ok () := by
  obtain ⟨⟨y, proof, hprove, rfl, hfirst, hpasses⟩, hany⟩ :=
    honest_proofs_pass (show DelayParams.check 7 3 = .ok ⟨7, 3⟩ from rfl) 10
  exact ⟨rfl, ⟨_, proof, hprove, by decide, hfirst, hpasses⟩,
    hany (fun _ _ _ => 5) 7 3 3 (by decide) (by decide) (by decide)⟩

end DelayProof

end Beacon
