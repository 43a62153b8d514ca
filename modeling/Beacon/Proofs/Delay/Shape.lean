import Beacon.Proofs.Delay.Halving
import Mathlib.Data.Nat.Log

/-
  The shape of a proof. It is fixed by the delay that the proof starts from, whatever the
  claims say: a chain of halves has one claim for each halving of the delay, rounded up,
  until one squaring is left, and ends there (`Halves`). A chain that is made is one, and so
  is a chain that is accepted, so that no proof that passes is shorter, longer or runs on
  past one squaring (`proofs_shaped`).
-/

namespace Beacon

namespace DelayProof

variable {rule : ChallengeRule} {c : DelayClaim} {rest : List DelayClaim} {p : DelayProof}

/-! ## Chains of halves -/

/-- Claims about one modulus after `c`, each with the delay of the one before halved, down
to one squaring. -/
inductive Halves : DelayClaim → List DelayClaim → Prop
  | last {c : DelayClaim} (ht : c.t = 1) : Halves c []
  | half {c next : DelayClaim} {rest : List DelayClaim} (hlong : 1 < c.t.toNat)
      (hn : next.n = c.n) (ht : next.t = Delay.half c.t) (hrest : Halves next rest) :
      Halves c (next :: rest)

theorem Accepted.halves (h : Accepted rule c rest) : Halves c rest := by
  induction h with
  | last hwf ht => exact .last ht
  | half hwf hhalf hrest ih => exact .half (hhalf.long hwf) hhalf.n_eq hhalf.t_eq ih

theorem Made.halves (h : Made rule c rest) : Halves c rest := by
  induction h with
  | last hwf ht => exact .last ht
  | half hwf hhalf hmid hrest ih => exact .half (hhalf.long hwf) hhalf.n_eq hhalf.t_eq ih

namespace Halves

theorem length_eq (h : Halves c rest) : (c :: rest).length = Nat.clog 2 c.t.toNat + 1 := by
  induction h with
  | @last c ht =>
    rw [ht]
    rfl
  | @half c next rest hlong hn ht hrest ih =>
    have hclog : Nat.clog 2 c.t.toNat = Nat.clog 2 ((c.t.toNat + 1) / 2) + 1 :=
      Nat.clog_of_two_le (by decide) hlong
    rw [List.length_cons, ih, ht, Delay.toNat_half, hclog]

theorem modulus_eq (h : Halves c rest) : ∀ d ∈ c :: rest, d.n = c.n := by
  induction h with
  | last ht =>
    intro d hd
    rw [List.mem_singleton.mp hd]
  | half hlong hn ht hrest ih =>
    intro d hd
    rcases List.mem_cons.mp hd with rfl | hd
    · rfl
    · exact (ih d hd).trans hn

theorem halved (h : Halves c rest) {i : Nat} (hi : i + 1 < (c :: rest).length) :
    (c :: rest)[i + 1].t.toNat = ((c :: rest)[i].t.toNat + 1) / 2 := by
  induction h generalizing i with
  | last ht => exact absurd hi (Nat.not_lt.mpr (Nat.succ_le_succ (Nat.zero_le i)))
  | half hlong hn ht hrest ih =>
    cases i with
    | zero =>
      rw [List.getElem_cons_zero, List.getElem_cons_succ, List.getElem_cons_zero, ht,
        Delay.toNat_half]
    | succ i => exact ih (Nat.lt_of_succ_lt_succ hi)

theorem one_iff_last (h : Halves c rest) {i : Nat} (hi : i < (c :: rest).length) :
    (c :: rest)[i].t = 1 ↔ i + 1 = (c :: rest).length := by
  induction h generalizing i with
  | last ht =>
    obtain rfl : i = 0 := Nat.lt_one_iff.mp hi
    exact iff_of_true ht rfl
  | half hlong hn ht hrest ih =>
    cases i with
    | zero =>
      refine iff_of_false ?_ (by simp)
      intro hone
      rw [List.getElem_cons_zero] at hone
      rw [hone] at hlong
      exact absurd hlong (by decide)
    | succ i => exact (ih (Nat.lt_of_succ_lt_succ hi)).trans Nat.succ_inj.symm

end Halves

/-! ## Proofs -/

/-- The shape of a proof that starts from `first`. -/
structure Shaped (p : DelayProof) (first : DelayClaim) : Prop where
  first_eq : p.first? = some first
  length_eq : p.claims.length = Nat.clog 2 first.t.toNat + 1
  modulus_eq : ∀ c ∈ p.claims, c.n = first.n
  halved : ∀ i (hi : i + 1 < p.claims.length),
    p.claims[i + 1].t.toNat = (p.claims[i].t.toNat + 1) / 2
  one_iff_last : ∀ i (hi : i < p.claims.length), p.claims[i].t = 1 ↔ i + 1 = p.claims.length

theorem Halves.shaped (h : Halves c rest) : Shaped ⟨c :: rest⟩ c :=
  ⟨rfl, h.length_eq, h.modulus_eq, fun _ hi => h.halved hi, fun _ hi => h.one_iff_last hi⟩

theorem Shaped.length_le (h : Shaped p c) : p.claims.length ≤ 65 := by
  have hdelay : c.t.toNat ≤ 2 ^ 64 := Nat.le_of_lt c.t.toNat_lt
  have hclog : Nat.clog 2 c.t.toNat ≤ 64 := Nat.clog_le_of_le_pow hdelay
  rw [h.length_eq]
  omega

theorem generateBy_shaped (rule : ChallengeRule) (hwf : c.wellFormed = true) :
    ∃ p, generateBy rule c = .ok p ∧ Shaped p c := by
  obtain ⟨rest, hgenerate, hmade⟩ := generateBy_made rule hwf
  exact ⟨_, hgenerate, hmade.halves.shaped⟩

theorem shaped_of_checkBy (h : p.checkBy rule = .ok ()) : ∃ first, Shaped p first := by
  obtain ⟨c, rest, rfl, haccepted⟩ := checkBy_eq_ok.mp h
  exact ⟨c, haccepted.halves.shaped⟩

/-- There is no proof of a claim that is not well formed, and of every other claim there
is one. -/
theorem generateBy_eq_error {e : DelayError} :
    generateBy rule c = .error e ↔ c.wellFormed = false ∧ e = .malformedClaim 0 := by
  cases hwf : c.wellFormed with
  | false =>
    have hrefused : generateBy rule c = .error (.malformedClaim 0) := by
      rw [generateBy, hwf]
      rfl
    rw [hrefused, Except.error.injEq, eq_comm, and_iff_right rfl]
  | true =>
    obtain ⟨p, hp, -⟩ := generateBy_shaped rule hwf
    rw [hp]
    exact iff_of_false (by simp) (by simp)

/-- Every well-formed claim, true or false, has a proof of the shape its delay gives, and
every proof that passes has that shape, so that it has 65 claims at most. Proving fails for
the claims that are not well formed, always with the refusal of the first claim, and for no
others. -/
theorem proofs_shaped :
    (∀ c : DelayClaim, c.wellFormed = true → ∃ p, generate c = .ok p ∧ Shaped p c) ∧
    (∀ p : DelayProof, p.check = .ok () → ∃ first, Shaped p first ∧ p.claims.length ≤ 65) ∧
    ∀ (c : DelayClaim) (e : DelayError),
      generate c = .error e ↔ c.wellFormed = false ∧ e = .malformedClaim 0 := by
  refine ⟨fun c hwf => generateBy_shaped _ hwf, ?_, fun c e => generateBy_eq_error⟩
  intro p hp
  obtain ⟨first, hshaped⟩ := shaped_of_checkBy hp
  exact ⟨first, hshaped, hshaped.length_le⟩

/-- Five squarings modulo seven are halved three times, whether the claim is false or the
proof passes. -/
theorem proofs_shaped_five :
    (DelayClaim.wellFormed ⟨7, 3, 6, 5, 0⟩ = true ∧
      ∃ p, generate ⟨7, 3, 6, 5, 0⟩ = .ok p ∧ p.claims.length = 4) ∧
    (∃ p : DelayProof, p.check = .ok () ∧ p.first? = some ⟨7, 3, 2, 5, 2⟩ ∧
      p.claims.length = 4) ∧
    generate ⟨7, 7, 6, 5, 0⟩ = .error (.malformedClaim 0) := by
  obtain ⟨hmade, hpasses, hrefused⟩ := proofs_shaped
  have hlength : Nat.clog 2 (5 : UInt64).toNat + 1 = 4 := by decide
  have hfalse : DelayClaim.wellFormed ⟨7, 3, 6, 5, 0⟩ = true := by decide
  obtain ⟨q, hq, hshaped⟩ := hmade _ hfalse
  obtain ⟨rest, -, hrest⟩ := generateBy_made DelayClaim.challenge
    (show DelayClaim.wellFormed ⟨7, 3, 2, 5, 2⟩ = true by decide)
  have hcheck : check ⟨⟨7, 3, 2, 5, 2⟩ :: rest⟩ = .ok () := by
    refine checkBy_cons.mpr (hrest.accepted ?_ ?_)
    · show 2 = 3 ^ 2 ^ 3 % 7
      decide
    · show 2 = 3 ^ 2 ^ 5 % 7
      decide
  obtain ⟨first, hpassing, -⟩ := hpasses _ hcheck
  obtain rfl := Option.some.inj hpassing.first_eq
  exact ⟨⟨hfalse, q, hq, hshaped.length_eq.trans hlength⟩,
    ⟨_, hcheck, rfl, hpassing.length_eq.trans hlength⟩,
    (hrefused _ _).mpr ⟨by decide, rfl⟩⟩

end DelayProof

end Beacon
