import Beacon.Proofs.Delay.Chain

/-
  What halving keeps of a claim. If the midpoint is true, the half of a claim says of
  a power of the result what the claim says of the result: its `foldPower`, one for an
  even delay and two for an odd one, and all of it times a power of the midpoint
  (`IsHalf.power_modEq`). Down a chain of true midpoints the powers multiply to
  `2 ^ oddHalvings`, and the midpoints to the `drift` (`Made.accepted_iff`). A base
  that is coprime to the modulus has a coprime drift, which then cancels.
-/

namespace Beacon

variable {rule : ChallengeRule} {c next : DelayClaim} {rest : List DelayClaim}

/-- How many odd delays above one the halves of a delay run through. -/
def Delay.oddHalvings (t : Nat) : Nat :=
  if 1 < t then t % 2 + oddHalvings ((t + 1) / 2) else 0
termination_by t
decreasing_by omega

theorem Delay.oddHalvings_eq_zero {t : Nat} (ht : 0 < t) :
    oddHalvings t = 0 ↔ ∃ k, t = 2 ^ k := by
  induction t using oddHalvings.induct with
  | case1 t hlong ih =>
    rw [oddHalvings, if_pos hlong, Nat.add_eq_zero_iff, ih (by omega)]
    constructor
    · intro ⟨heven, k, hk⟩
      exact ⟨k + 1, by rw [pow_succ, ← hk]; omega⟩
    · rintro ⟨_ | k, rfl⟩
      · exact absurd hlong (by decide)
      · have hk : (2 ^ (k + 1) + 1) / 2 = 2 ^ k := by rw [pow_succ]; omega
        exact ⟨by rw [pow_succ]; omega, k, hk⟩
  | case2 t hshort =>
    rw [oddHalvings, if_neg hshort]
    exact ⟨fun _ => ⟨0, by rw [pow_zero]; omega⟩, fun _ => rfl⟩

theorem Delay.oddHalvings_ne_zero {t : Nat} (hlong : 1 < t) (hodd : t % 2 = 1) :
    oddHalvings t ≠ 0 := by
  rw [oddHalvings, if_pos hlong]
  omega

/-! ## One half -/

namespace DelayClaim

theorem two_pow_oddHalvings (ht : 1 < c.t.toNat) :
    2 ^ Delay.oddHalvings c.t.toNat =
      c.foldPower * 2 ^ Delay.oddHalvings (Delay.half c.t).toNat := by
  rw [Delay.oddHalvings, if_pos ht, Delay.toNat_half, pow_add, foldPower_eq]

namespace IsHalf

theorem long (h : c.IsHalf rule next) (hwf : c.wellFormed = true) : 1 < c.t.toNat := by
  have hpos := (wellFormed_iff.mp hwf).1
  have hne : c.t.toNat ≠ 1 := fun ht => h.delay_ne (UInt64.toNat_inj.mp ht)
  omega

theorem result_modEq (h : c.IsHalf rule next) :
    next.y ≡ c.v ^ rule c.x c.y c.v * c.y ^ c.foldPower [MOD c.n] := by
  rw [h.y_eq]
  exact Nat.mod_modEq _ _

/-- With a true midpoint, the true result of the half is the true result of the claim,
to its power and times that of the midpoint. -/
theorem power_modEq (h : c.IsHalf rule next) (hmid : c.Midway) :
    next.x ^ 2 ^ next.t.toNat ≡
      c.v ^ rule c.x c.y c.v * (c.x ^ 2 ^ c.t.toNat) ^ c.foldPower [MOD c.n] := by
  have hv : c.v ≡ c.x ^ 2 ^ (Delay.half c.t).toNat [MOD c.n] := by
    rw [hmid]
    exact Nat.mod_modEq _ _
  rw [h.x_eq, h.t_eq]
  generalize rule c.x c.y c.v = r
  calc (c.x ^ r * c.v % c.n) ^ 2 ^ (Delay.half c.t).toNat
      ≡ (c.x ^ r * c.v) ^ 2 ^ (Delay.half c.t).toNat [MOD c.n] := (Nat.mod_modEq _ _).pow _
    _ = (c.x ^ 2 ^ (Delay.half c.t).toNat) ^ r * c.v ^ 2 ^ (Delay.half c.t).toNat := by
        rw [mul_pow, pow_right_comm]
    _ ≡ c.v ^ r * (c.x ^ 2 ^ (Delay.half c.t).toNat) ^ 2 ^ (Delay.half c.t).toNat [MOD c.n] :=
        (hv.symm.pow r).mul (hv.pow _)
    _ = c.v ^ r * (c.x ^ 2 ^ c.t.toNat) ^ c.foldPower := by
        rw [← pow_mul, two_pow_half, ← pow_mul]

theorem coprime (h : c.IsHalf rule next) (hmid : c.Midway) (hx : c.x.Coprime c.n) :
    next.x.Coprime next.n ∧ c.v.Coprime c.n := by
  have hv : c.v.Coprime c.n := by
    rw [hmid, Nat.Coprime, (Nat.mod_modEq _ _).gcd_eq]
    exact hx.pow_left _
  refine ⟨?_, hv⟩
  rw [h.x_eq, h.n_eq, Nat.Coprime, (Nat.mod_modEq _ _).gcd_eq]
  exact (hx.pow_left _).mul_left hv

end IsHalf

end DelayClaim

/-! ## A chain -/

namespace DelayProof

/-- The powers of the midpoints that the last claim of a chain has gathered. -/
def drift (rule : ChallengeRule) : DelayClaim → List DelayClaim → Nat
  | _, [] => 1
  | c, next :: rest =>
    (c.v ^ rule c.x c.y c.v) ^ 2 ^ Delay.oddHalvings next.t.toNat * drift rule next rest

/-- A chain of true midpoints passes exactly if its first claim is true to the power
`2 ^ oddHalvings` and up to the drift. -/
theorem Made.accepted_iff (h : Made rule c rest) (hmid : c.Midway) :
    Accepted rule c rest ↔
      c.y ^ 2 ^ Delay.oddHalvings c.t.toNat * drift rule c rest ≡
        (c.x ^ 2 ^ c.t.toNat) ^ 2 ^ Delay.oddHalvings c.t.toNat * drift rule c rest [MOD c.n] := by
  induction h with
  | @last c hwf ht =>
    have hy : c.y % c.n = c.y := Nat.mod_eq_of_lt (DelayClaim.wellFormed_iff.mp hwf).2.2.1
    have hv : c.v = c.x * c.x % c.n := by
      rw [hmid, ht, show (Delay.half 1).toNat = 1 from rfl, pow_one, pow_two]
    rw [accepted_nil hwf ht, and_iff_left_of_imp fun h => hv.trans h.symm]
    simp [ht, drift, Delay.oddHalvings, Nat.ModEq, hy, pow_two]
  | @half c next rest hwf hhalf hmid' hrest ih =>
    -- The power of `c` is that of `next`, once more squared if the delay of `c` is odd.
    have hpow := DelayClaim.two_pow_oddHalvings (hhalf.long hwf)
    rw [← hhalf.t_eq] at hpow
    have ih := ih hmid'
    rw [hhalf.n_eq] at ih
    rw [accepted_cons hwf hhalf, ih, hpow, drift]
    generalize 2 ^ Delay.oddHalvings next.t.toNat = k
    generalize drift rule next rest = d
    -- Both sides of the congruence about `next` are those about `c`.
    have gather : ∀ a b, a ≡ c.v ^ rule c.x c.y c.v * b ^ c.foldPower [MOD c.n] →
        a ^ k * d ≡ b ^ (c.foldPower * k) * ((c.v ^ rule c.x c.y c.v) ^ k * d) [MOD c.n] := by
      intro a b hab
      rw [← mul_assoc, mul_comm (b ^ _), pow_mul, ← mul_pow]
      exact (hab.pow k).mul_right d
    have hy := gather _ _ hhalf.result_modEq
    have hpower := gather _ _ (hhalf.power_modEq hmid)
    exact ⟨fun h => hy.symm.trans (h.trans hpower), fun h => hy.trans (h.trans hpower.symm)⟩

theorem Made.drift_coprime (h : Made rule c rest) (hmid : c.Midway) (hx : c.x.Coprime c.n) :
    (drift rule c rest).Coprime c.n := by
  induction h with
  | last => exact Nat.coprime_one_left _
  | half hwf hhalf hmid' hrest ih =>
    obtain ⟨hnext, hv⟩ := hhalf.coprime hmid hx
    have hd := ih hmid' hnext
    rw [hhalf.n_eq] at hd
    exact ((hv.pow_left _).pow_left _).mul_left hd

/-- From a coprime base the drift cancels. -/
theorem Made.accepted_iff_of_coprime (h : Made rule c rest) (hmid : c.Midway)
    (hx : c.x.Coprime c.n) :
    Accepted rule c rest ↔
      c.y ^ 2 ^ Delay.oddHalvings c.t.toNat ≡
        (c.x ^ 2 ^ c.t.toNat) ^ 2 ^ Delay.oddHalvings c.t.toNat [MOD c.n] := by
  rw [h.accepted_iff hmid]
  have hd := h.drift_coprime hmid hx
  exact ⟨Nat.ModEq.cancel_right_of_coprime (Nat.coprime_comm.mp hd), fun hy => hy.mul_right _⟩

theorem Made.accepted (h : Made rule c rest) (hmid : c.Midway) (hc : c.Holds) :
    Accepted rule c rest := by
  have hy : c.y ≡ c.x ^ 2 ^ c.t.toNat [MOD c.n] := by
    rw [hc]
    exact Nat.mod_modEq _ _
  exact (h.accepted_iff hmid).mpr ((hy.pow _).mul_right _)

end DelayProof

end Beacon
