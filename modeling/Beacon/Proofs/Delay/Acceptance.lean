import Beacon.Proofs.Delay.Completeness
import Beacon.Proofs.Digest.Unrolled

/-
  What a passing proof says. About one squaring it says that its first claim is true
  (`Accepted.holds`). Above that it need not say anything: a midpoint of zero has a
  half about zero, which is true whatever the result (`accepted_zero_midpoint`). With
  the true midpoint, from a base coprime to the modulus, it says that the result is
  true to the power `2 ^ oddHalvings` (`construct_passes_iff`), which is the truth for
  delays that are powers of two and for no others: the negated result passes as well.
-/

namespace Beacon

namespace DelayProof

variable {rule : ChallengeRule} {n x y : Nat} {t : UInt64}

/-- A passing proof about one squaring is true. -/
theorem Accepted.holds {c : DelayClaim} {rest : List DelayClaim} (h : Accepted rule c rest)
    (ht : c.t = 1) : c.Holds := by
  cases h with
  | last hwf _ hy hv => rw [DelayClaim.Holds, ht, hy, ← pow_two]; rfl
  | half hwf hhalf hrest => exact absurd ht hhalf.delay_ne

/-- A claim of anything has a passing proof, with the midpoint zero, unless the
challenge is zero. -/
theorem accepted_zero_midpoint (hx : x < n) (hy : y < n) (ht : t ≠ 0) (ht1 : t ≠ 1)
    (hr : rule x y 0 ≠ 0) : ∃ rest, Accepted rule ⟨n, x, y, t, 0⟩ rest := by
  have hn : 0 < n := by omega
  have htpos : 0 < t.toNat := Nat.pos_of_ne_zero fun h => ht (UInt64.toNat_inj.mp h)
  have hhalf : 0 < (Delay.half t).toNat := by
    rw [Delay.toNat_half]
    omega
  have hzero : ∀ k, 0 = 0 ^ 2 ^ k % n := by
    intro k
    rw [zero_pow (pow_ne_zero _ two_ne_zero), Nat.zero_mod]
  -- The half of the claim is about zero, and true.
  let next : DelayClaim := ⟨n, 0, 0, Delay.half t, 0⟩
  have hwf : next.wellFormed = true := DelayClaim.wellFormed_iff.mpr ⟨hhalf, hn, hn, hn⟩
  have hmid : next.Midway := hzero _
  have hholds : next.Holds := hzero _
  obtain ⟨rest, -, hmade⟩ := generateBy_made rule hwf
  have hx0 : 0 = x ^ rule x y 0 * 0 % n := by rw [mul_zero, Nat.zero_mod]
  have hy0 : 0 = 0 ^ rule x y 0 * y ^ DelayClaim.foldPower ⟨n, x, y, t, 0⟩ % n := by
    rw [zero_pow hr, zero_mul, Nat.zero_mod]
  exact ⟨next :: rest, .half (DelayClaim.wellFormed_iff.mpr ⟨htpos, hx, hy, hn⟩)
    ⟨rfl, ht1, hx0, hy0, rfl⟩ (hmade.accepted hmid hholds)⟩

/-- The proof of a constructed claim passes exactly if the claim is true to the power
`2 ^ oddHalvings` and up to the drift. -/
theorem construct_passes_iff (rule : ChallengeRule) (hx : x < n) (hy : y < n) (ht : t ≠ 0) :
    ∃ c rest, DelayClaim.construct n x y t = .ok c ∧ generateBy rule c = .ok ⟨c :: rest⟩ ∧
      (checkBy rule ⟨c :: rest⟩ = .ok () ↔
        y ^ 2 ^ Delay.oddHalvings t.toNat * drift rule c rest ≡
          (x ^ 2 ^ t.toNat) ^ 2 ^ Delay.oddHalvings t.toNat * drift rule c rest [MOD n]) ∧
      (x.Coprime n → (checkBy rule ⟨c :: rest⟩ = .ok () ↔
        y ^ 2 ^ Delay.oddHalvings t.toNat ≡
          (x ^ 2 ^ t.toNat) ^ 2 ^ Delay.oddHalvings t.toNat [MOD n])) := by
  obtain ⟨c, hc, hwf, hmid, rfl, rfl, rfl, rfl⟩ := DelayClaim.construct_spec ht hx hy
  obtain ⟨rest, hgen, hmade⟩ := generateBy_made rule hwf
  exact ⟨c, rest, hc, hgen, checkBy_cons.trans (hmade.accepted_iff hmid),
    fun hcop => checkBy_cons.trans (hmade.accepted_iff_of_coprime hmid hcop)⟩

/-- Unless the delay is a power of two, the negated result passes as well as the true
one: the first odd delay above one squares the sign away. -/
theorem negated_passes (rule : ChallengeRule) (hx : x < n) (hy : y < n) (ht : t ≠ 0)
    (hodd : Delay.oddHalvings t.toNat ≠ 0) (hneg : y + x ^ 2 ^ t.toNat ≡ 0 [MOD n]) :
    ∃ c p, DelayClaim.construct n x y t = .ok c ∧ generateBy rule c = .ok p ∧
      p.first? = some c ∧ p.checkBy rule = .ok () := by
  obtain ⟨c, rest, hc, hgen, hiff, -⟩ := construct_passes_iff rule hx hy ht
  refine ⟨c, ⟨c :: rest⟩, hc, hgen, rfl, hiff.mpr (Nat.ModEq.mul_right _ ?_)⟩
  generalize x ^ 2 ^ t.toNat = z at hneg ⊢
  obtain ⟨m, hm⟩ := Nat.exists_eq_succ_of_ne_zero hodd
  -- The squares of the two results agree, and the power is even.
  have hy : y * y + y * z ≡ 0 [MOD n] := by
    rw [← mul_add]
    exact hneg.mul_left y
  have hz : z * z + y * z ≡ 0 [MOD n] := by
    rw [mul_comm y z, ← mul_add, add_comm]
    exact hneg.mul_left z
  have hsquare : y ^ 2 ≡ z ^ 2 [MOD n] := by
    rw [pow_two, pow_two]
    exact Nat.ModEq.add_right_cancel' (y * z) (hy.trans hz.symm)
  rw [hm, Nat.succ_eq_add_one, pow_succ', pow_mul, pow_mul]
  exact hsquare.pow _

theorem Accepted.made {c : DelayClaim} {rest : List DelayClaim} (h : Accepted rule c rest)
    (hmid : ∀ d ∈ rest, d.Midway) : Made rule c rest := by
  induction h with
  | last hwf ht => exact .last hwf ht
  | half hwf hhalf hrest ih =>
    obtain ⟨hnext, hmid⟩ := List.forall_mem_cons.mp hmid
    exact .half hwf hhalf hnext (ih hmid)

/-- For a power of two, from a base coprime to the modulus, a passing proof with true
midpoints is true. -/
theorem Accepted.holds_of_two_pow {c : DelayClaim} {rest : List DelayClaim}
    (h : Accepted rule c rest) (hmid : ∀ d ∈ c :: rest, d.Midway) (hcop : c.x.Coprime c.n)
    (ht : ∃ k, c.t.toNat = 2 ^ k) : c.Holds := by
  obtain ⟨htpos, -, hy, -⟩ := DelayClaim.wellFormed_iff.mp h.wellFormed
  obtain ⟨hfirst, hmid⟩ := List.forall_mem_cons.mp hmid
  have hpow := ((h.made hmid).accepted_iff_of_coprime hfirst hcop).mp h
  rw [(Delay.oddHalvings_eq_zero htpos).mpr ht, pow_zero, pow_one, pow_one] at hpow
  rw [DelayClaim.Holds, ← hpow, Nat.mod_eq_of_lt hy]

/-! ## Every modulus and every delay -/

theorem challenge_one_zero_zero : DelayClaim.challenge 1 0 0 ≠ 0 := by
  rw [DelayClaim.challenge, Octets.toNat, bytes_keccak256]
  decide +kernel

/-- Whatever the modulus and whatever the delay above one, a false claim has a passing
proof: that one, squared so often, is zero. -/
theorem false_claim_passes (hn : 1 < n) (ht : t ≠ 0) (ht1 : t ≠ 1) :
    ∃ p : DelayProof, p.first? = some ⟨n, 1, 0, t, 0⟩ ∧ p.check = .ok () ∧
      ¬DelayClaim.Holds ⟨n, 1, 0, t, 0⟩ := by
  obtain ⟨rest, hrest⟩ :=
    accepted_zero_midpoint hn (Nat.zero_lt_of_lt hn) ht ht1 challenge_one_zero_zero
  refine ⟨⟨_ :: rest⟩, rfl, checkBy_cons.mpr hrest, ?_⟩
  rw [DelayClaim.Holds, one_pow, Nat.one_mod_eq_one.mpr hn.ne']
  exact zero_ne_one

/-- What passing proofs say for a modulus and a delay. All of them are true exactly for
a delay of one. Above it any result has one, unless its challenge with the midpoint
zero is zero; and the proof of a constructed claim passes exactly if the claim is true
to the power `2 ^ oddHalvings` and up to the drift, which cancels if the base is
coprime to the modulus. -/
theorem passing_proofs_true_iff (hn : 1 < n) (ht : 1 ≤ t) :
    ((∀ (p : DelayProof) c, p.first? = some c → c.n = n → c.t = t → p.check = .ok () →
      c.Holds) ↔ t = 1) ∧
    (∀ x y, x < n → y < n → t ≠ 1 → DelayClaim.challenge x y 0 ≠ 0 →
      ∃ p : DelayProof, p.first? = some ⟨n, x, y, t, 0⟩ ∧ p.check = .ok ()) ∧
    ∀ x y, x < n → y < n →
      ∃ c p, DelayClaim.construct n x y t = .ok c ∧ generate c = .ok p ∧ p.first? = some c ∧
        (p.check = .ok () ↔
          y ^ 2 ^ Delay.oddHalvings t.toNat * drift DelayClaim.challenge c p.claims.tail ≡
            (x ^ 2 ^ t.toNat) ^ 2 ^ Delay.oddHalvings t.toNat *
              drift DelayClaim.challenge c p.claims.tail [MOD n]) ∧
        (x.Coprime n → (p.check = .ok () ↔
          y ^ 2 ^ Delay.oddHalvings t.toNat ≡
            (x ^ 2 ^ t.toNat) ^ 2 ^ Delay.oddHalvings t.toNat [MOD n])) := by
  have ht0 : t ≠ 0 := by
    intro h
    rw [h] at ht
    exact absurd ht (by decide)
  refine ⟨⟨?_, ?_⟩, ?_, ?_⟩
  · intro hall
    by_contra ht1
    obtain ⟨p, hfirst, hcheck, hfalse⟩ := false_claim_passes hn ht0 ht1
    exact hfalse (hall p _ hfirst rfl rfl hcheck)
  · intro ht1 p c hfirst _ hct hcheck
    obtain ⟨c', rest, rfl, haccepted⟩ := checkBy_eq_ok.mp hcheck
    obtain rfl := Option.some.inj hfirst
    exact haccepted.holds (hct.trans ht1)
  · intro x y hx hy ht1 hr
    obtain ⟨rest, hrest⟩ := accepted_zero_midpoint hx hy ht0 ht1 hr
    exact ⟨⟨_ :: rest⟩, rfl, checkBy_cons.mpr hrest⟩
  · intro x y hx hy
    obtain ⟨c, rest, hc, hgen, hiff, hcop⟩ := construct_passes_iff DelayClaim.challenge hx hy ht0
    exact ⟨c, ⟨c :: rest⟩, hc, hgen, rfl, hiff, hcop⟩

theorem passing_proofs_true_iff_seven :
    1 < 7 ∧ (1 : UInt64) ≤ 3 ∧
      ¬(∀ (p : DelayProof) c, p.first? = some c → c.n = 7 → c.t = 3 → p.check = .ok () →
        c.Holds) := by
  have h := (passing_proofs_true_iff (n := 7) (t := 3) (by decide) (by decide)).1
  exact ⟨by decide, by decide, fun hall => absurd (h.mp hall) (by decide)⟩

/-- Three is two after three squarings modulo seven, but the proof that it is minus two
passes. -/
theorem negated_result_passes_seven :
    DelayClaim.construct 7 3 5 3 = .ok ⟨7, 3, 5, 3, 4⟩ ∧ Delay.evaluate 7 3 3 = .ok 2 ∧
      ∃ p, generate ⟨7, 3, 5, 3, 4⟩ = .ok p ∧ p.check = .ok () := by
  obtain ⟨c, p, hc, hgen, -, hpasses⟩ :=
    negated_passes DelayClaim.challenge (n := 7) (x := 3) (y := 5) (t := 3) (by decide)
      (by decide) (by decide) (Delay.oddHalvings_ne_zero (by decide) (by decide)) (by decide)
  have hc' : DelayClaim.construct 7 3 5 3 = .ok ⟨7, 3, 5, 3, 4⟩ := by decide
  obtain rfl := Except.ok.inj (hc'.symm.trans hc)
  exact ⟨hc', by decide, p, hgen, hpasses⟩

end DelayProof

end Beacon
