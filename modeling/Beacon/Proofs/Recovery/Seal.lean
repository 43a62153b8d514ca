import Beacon.Proofs.Delay.Acceptance
import Beacon.Proofs.Recovery.Verdict

/-
  Seals and the puzzles under them. Sealing under one solution twice gives the value
  back (`applySeal_applySeal`). A commitment that was sealed was sealed under the true
  solution of its puzzle (`sealSecret_eq_ok`), whose base is a remainder for every
  modulus above four (`baseOf_lt`).

  A recovery proves a result of the puzzle, and for a delay of one only the true one
  (`Proves.result_eq`); for any other delay nearly every result can be proved
  (`exists_proves`).
-/

namespace Beacon

namespace Octets

theorem zipWith_xor_zipWith_xor {a b : Bytes} (h : a.length = b.length) :
    List.zipWith (· ^^^ ·) (List.zipWith (· ^^^ ·) a b) b = a := by
  induction a generalizing b with
  | nil => rfl
  | cons x a ih =>
    cases b with
    | nil => cases h
    | cons y b =>
      have hx : x ^^^ y ^^^ y = x := by rw [UInt8.xor_assoc, UInt8.xor_self, UInt8.xor_zero]
      simp only [List.zipWith_cons_cons, hx, ih (Nat.succ.inj h)]

theorem xor_xor_cancel {n : Nat} (a b : Octets n) : (a.xor b).xor b = a :=
  Octets.ext (zipWith_xor_zipWith_xor (a.length_bytes.trans b.length_bytes.symm))

end Octets

namespace Delay

variable {stop : StopSignal} {n x y : Nat} {t : UInt64}

theorem squaringsUntil_eq_ok {left i z : Nat} (h : squaringsUntil stop n left i y = .ok z) :
    z = squarings n left y := by
  induction left generalizing i y with
  | zero => exact (Except.ok.inj h).symm
  | succ left ih =>
    rw [squaringsUntil] at h
    split at h
    · cases h
    · exact ih h

theorem evaluateUntil_eq_ok (hn : 0 < n) (h : evaluateUntil stop n x t = .ok y) :
    y = x ^ 2 ^ t.toNat % n := by
  rw [evaluateUntil, reduce_eq hn, Except.bind] at h
  rw [squaringsUntil_eq_ok h, squarings_eq]

end Delay

namespace Puzzle

variable {N : Nat} {round : UInt64} {operator : Address} {cvs : Word}

theorem applySeal_applySeal (value : Word) (y : Nat) : applySeal (applySeal value y) y = value :=
  Octets.xor_xor_cancel value (pad y)

theorem baseOf_eq (hN : 0 < N) :
    baseOf N round operator cvs =
      .ok (if seed round operator cvs ^ 2 % N < 2 then 4 else seed round operator cvs ^ 2 % N) := by
  simp only [baseOf, Delay.reduce_eq hN, bind, Except.bind, pure, Except.pure, ← pow_two,
    ← Nat.pow_mod]

theorem baseOf_lt {x : Nat} (hN : 4 < N) (h : baseOf N round operator cvs = .ok x) : x < N := by
  rw [baseOf_eq (by omega)] at h
  obtain rfl := Except.ok.inj h
  split
  · exact hN
  · exact Nat.mod_lt _ (by omega)

theorem baseOf_eq_four (hN : N = 4 ∨ N = 5) : baseOf N round operator cvs = .ok 4 := by
  rw [baseOf_eq (by omega), Nat.pow_mod]
  generalize seed round operator cvs = s
  rcases hN with rfl | rfl
  · have hs : s % 4 = 0 ∨ s % 4 = 1 ∨ s % 4 = 2 ∨ s % 4 = 3 := by omega
    rcases hs with h | h | h | h <;> rw [h] <;> rfl
  · have hs : s % 5 = 0 ∨ s % 5 = 1 ∨ s % 5 = 2 ∨ s % 5 = 3 ∨ s % 5 = 4 := by omega
    rcases hs with h | h | h | h | h <;> rw [h] <;> rfl

/-- A sealed secret lies under the true solution of the puzzle. -/
theorem sealSecret_eq_ok {params : DelayParams} {c : Commitment} {stop : Delay.StopSignal}
    {sealed : Word} (hN : 0 < params.modulus) (h : sealSecret params c stop = .ok sealed) :
    ∃ x, baseOf params.modulus c.round c.operator c.cvs = .ok x ∧
      sealed = applySeal c.secret (x ^ 2 ^ params.delay.toNat % params.modulus) := by
  obtain ⟨x, hx⟩ : ∃ x, baseOf params.modulus c.round c.operator c.cvs = .ok x :=
    ⟨_, baseOf_eq hN⟩
  refine ⟨x, hx, ?_⟩
  simp only [sealSecret, hx, bind, Except.bind, pure, Except.pure] at h
  cases heval : Delay.evaluateUntil stop params.modulus x params.delay with
  | error e =>
    rw [heval] at h
    cases h
  | ok y =>
    rw [heval] at h
    rw [← Except.ok.inj h, Delay.evaluateUntil_eq_ok hN heval]

/-! ## Proved results -/

variable {q : Puzzle} {params : DelayParams} {proof : Recovery} {x y : Nat}

theorem Proves.accepted (h : q.Proves params proof y) (hx : q.base params = .ok x) :
    ∃ v rest, proof.proof = ⟨⟨params.modulus, x, y, params.delay, v⟩ :: rest⟩ ∧
      DelayProof.Accepted DelayClaim.challenge ⟨params.modulus, x, y, params.delay, v⟩ rest := by
  obtain ⟨first, hfirst, hn, ht, hbase, hy⟩ := h.starts
  obtain ⟨c, rest, hproof, haccepted⟩ := DelayProof.checkBy_eq_ok.mp h.passes
  rw [hproof] at hfirst
  obtain rfl := Option.some.inj hfirst
  obtain rfl := Except.ok.inj (hx.symm.trans hbase)
  subst hy
  obtain ⟨n, x, y, t, v⟩ := c
  obtain rfl : n = params.modulus := hn
  obtain rfl : t = params.delay := ht
  exact ⟨v, rest, hproof, haccepted⟩

theorem Proves.base_lt (h : q.Proves params proof y) (hx : q.base params = .ok x) :
    x < params.modulus := by
  obtain ⟨v, rest, -, haccepted⟩ := h.accepted hx
  exact (DelayClaim.wellFormed_iff.mp haccepted.wellFormed).2.1

theorem Proves.result_eq (h : q.Proves params proof y) (hx : q.base params = .ok x)
    (ht : params.delay = 1) : y = x ^ 2 ^ params.delay.toNat % params.modulus := by
  obtain ⟨v, rest, -, haccepted⟩ := h.accepted hx
  exact haccepted.holds ht

/-- Any other delay leaves room for a recovery with any result. -/
theorem exists_proves (hx : q.base params = .ok x) (hxlt : x < params.modulus)
    (hy : y < params.modulus) (ht : params.delay ≠ 0) (ht1 : params.delay ≠ 1)
    (hr : DelayClaim.challenge x y 0 ≠ 0) :
    ∃ proof : Recovery, proof.operator = q.operator ∧ q.Proves params proof y := by
  obtain ⟨rest, hrest⟩ := DelayProof.accepted_zero_midpoint hxlt hy ht ht1 hr
  exact ⟨⟨q.round, q.operator, q.sealed, ⟨_ :: rest⟩⟩, rfl, rfl, rfl,
    DelayProof.checkBy_cons.mpr hrest, _, rfl, rfl, rfl, hx, rfl⟩

end Puzzle

end Beacon
