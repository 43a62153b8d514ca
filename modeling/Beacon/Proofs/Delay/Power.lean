import Beacon.Delay.Claim
import Mathlib.Data.Nat.ModEq

/-
  The values of the delay function. Squaring `t` times is raising to the power
  `2 ^ t` (`evaluate_eq`), squaring and multiplying is raising to any power
  (`power_eq`), and so the half of a claim and the midpoint of a claim have closed
  forms (`halveAt_eq`, `construct_eq`). All of it holds modulo any number but zero,
  where there are no remainders.
-/

namespace Beacon

namespace Delay

variable {n : Nat}

theorem reduce_eq (hn : 0 < n) (x : Nat) : reduce x n = .ok (x % n) := by
  rw [reduce, if_neg (Nat.pos_iff_ne_zero.mp hn)]

/-- Squaring a remainder `t` times gives its power `2 ^ t`. -/
theorem squarings_eq (n t x : Nat) : squarings n t (x % n) = x ^ 2 ^ t % n := by
  induction t generalizing x with
  | zero => rw [squarings, pow_zero, pow_one]
  | succ t ih => rw [squarings, ← Nat.mul_mod, ih, ← pow_two, ← pow_mul, ← pow_succ']

theorem evaluate_eq (hn : 0 < n) (x : Nat) (t : UInt64) :
    evaluate n x t = .ok (x ^ 2 ^ t.toNat % n) := by
  rw [evaluate, reduce_eq hn, Except.map, squarings_eq]

theorem squaringsUntil_never (n left i y : Nat) :
    squaringsUntil .never n left i y = .ok (squarings n left y) := by
  induction left generalizing i y with
  | zero => rfl
  | succ left ih => simp [squaringsUntil, StopSignal.never, squarings, ← ih (i + 1)]

theorem evaluateUntil_never (hn : 0 < n) (x : Nat) (t : UInt64) :
    evaluateUntil .never n x t = .ok (x ^ 2 ^ t.toNat % n) := by
  rw [evaluateUntil, reduce_eq hn, Except.bind, squaringsUntil_never, squarings_eq]

theorem powerMod_eq (n b e : Nat) : powerMod n b e = b ^ e % n := by
  induction b, e using powerMod.induct n with
  | case1 b => simp [powerMod]
  | case2 b e he hodd ih =>
    rw [powerMod, dif_neg he, ih]
    simp only [hodd, if_true]
    rw [← Nat.pow_mod, Nat.mod_mul_mod, ← pow_two, ← pow_mul, ← pow_succ,
      show 2 * (e / 2) + 1 = e by omega]
  | case3 b e he heven ih =>
    rw [powerMod, dif_neg he, ih]
    simp only [heven, if_false]
    rw [← Nat.pow_mod, ← pow_two, ← pow_mul, show 2 * (e / 2) = e by omega]

theorem power_eq (hn : 0 < n) (b e : Nat) : power n b e = .ok (b ^ e % n) := by
  rw [power, if_neg (Nat.pos_iff_ne_zero.mp hn), powerMod_eq]

end Delay

namespace DelayClaim

def Holds (c : DelayClaim) : Prop := c.y = c.x ^ 2 ^ c.t.toNat % c.n

/-- Whether the midpoint of a claim is what it should be. -/
def Midway (c : DelayClaim) : Prop := c.v = c.x ^ 2 ^ (Delay.half c.t).toNat % c.n

/-- The half of a claim speaks of its result to this power: an odd delay is rounded up
and its result squared. -/
def foldPower (c : DelayClaim) : Nat := if c.t % 2 = 0 then 1 else 2

theorem wellFormed_iff {c : DelayClaim} :
    c.wellFormed = true ↔ 0 < c.t.toNat ∧ c.x < c.n ∧ c.y < c.n ∧ c.v < c.n := by
  simp [wellFormed, UInt64.le_iff_toNat_le, Nat.succ_le_iff, and_assoc]

theorem modulus_pos {c : DelayClaim} (hwf : c.wellFormed = true) : 0 < c.n :=
  Nat.zero_lt_of_lt (wellFormed_iff.mp hwf).2.1

theorem foldPower_eq (c : DelayClaim) : c.foldPower = 2 ^ (c.t.toNat % 2) := by
  have heven : c.t % 2 = 0 ↔ c.t.toNat % 2 = 0 := by
    rw [← UInt64.toNat_inj, UInt64.toNat_mod]
    rfl
  rw [foldPower]
  split
  · rename_i h
    rw [heven.mp h, pow_zero]
  · rename_i h
    rw [Nat.mod_two_ne_zero.mp (mt heven.mpr h), pow_one]

/-- Twice the half of a delay exceeds an odd delay by one. -/
theorem two_pow_half (c : DelayClaim) :
    2 ^ (Delay.half c.t).toNat * 2 ^ (Delay.half c.t).toNat = 2 ^ c.t.toNat * c.foldPower := by
  rw [foldPower_eq, ← pow_add, ← pow_add, Delay.toNat_half,
    show (c.t.toNat + 1) / 2 + (c.t.toNat + 1) / 2 = c.t.toNat + c.t.toNat % 2 by omega]

theorem halveAt_eq {c : DelayClaim} (hn : 0 < c.n) (r : Nat) :
    c.halveAt r = .ok (c.x ^ r * c.v % c.n, c.v ^ r * c.y ^ c.foldPower % c.n) := by
  simp only [halveAt, Delay.power_eq hn, Delay.reduce_eq hn, bind, Except.bind, pure, Except.pure,
    Nat.mod_mul_mod, foldPower]
  split
  · rw [pow_one]
  · rw [pow_two, Nat.mul_mod_mod]

theorem construct_eq {n x y : Nat} {t : UInt64} (ht : t ≠ 0) (hx : x < n) (hy : y < n) :
    construct n x y t = .ok ⟨n, x, y, t, x ^ 2 ^ (Delay.half t).toNat % n⟩ := by
  rw [construct, if_neg ht, if_neg (by omega), Delay.evaluate_eq (by omega), Except.map]

theorem construct_spec {n x y : Nat} {t : UInt64} (ht : t ≠ 0) (hx : x < n) (hy : y < n) :
    ∃ c, construct n x y t = .ok c ∧ c.wellFormed = true ∧ c.Midway ∧
      c.n = n ∧ c.x = x ∧ c.y = y ∧ c.t = t := by
  refine ⟨_, construct_eq ht hx hy, wellFormed_iff.mpr ⟨?_, hx, hy, Nat.mod_lt _ (by omega)⟩,
    rfl, rfl, rfl, rfl, rfl⟩
  exact Nat.pos_of_ne_zero fun h => ht (UInt64.toNat_inj.mp h)

end DelayClaim

end Beacon
