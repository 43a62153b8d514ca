import Beacon.Proofs.Delay.Power

/-
  The chains that are checked and the chains that are made. A proof passes exactly if
  its claims are `Accepted`: each is the half of the one before, down to a true claim
  about one squaring (`checkBy_eq_ok`). The proof that is made for a claim is the one
  chain of halves with true midpoints after the first claim (`generateBy_made`);
  whether its last claim is true is another matter. Both hold under any rule for
  challenges.
-/

namespace Beacon

variable {rule : ChallengeRule} {c next : DelayClaim} {rest : List DelayClaim} {n : Nat}

/-! ## Chains -/

structure DelayClaim.IsHalf (rule : ChallengeRule) (c next : DelayClaim) : Prop where
  n_eq : next.n = c.n
  delay_ne : c.t ≠ 1
  x_eq : next.x = c.x ^ rule c.x c.y c.v * c.v % c.n
  y_eq : next.y = c.v ^ rule c.x c.y c.v * c.y ^ c.foldPower % c.n
  t_eq : next.t = Delay.half c.t

namespace DelayProof

/-- Halves of `c` down to a true claim about one squaring. -/
inductive Accepted (rule : ChallengeRule) : DelayClaim → List DelayClaim → Prop
  | last {c : DelayClaim} (hwf : c.wellFormed = true) (ht : c.t = 1)
      (hy : c.y = c.x * c.x % c.n) (hv : c.v = c.y) : Accepted rule c []
  | half {c next : DelayClaim} {rest : List DelayClaim} (hwf : c.wellFormed = true)
      (hhalf : c.IsHalf rule next) (hrest : Accepted rule next rest) : Accepted rule c (next :: rest)

/-- Halves of `c` with true midpoints, down to a claim about one squaring. -/
inductive Made (rule : ChallengeRule) : DelayClaim → List DelayClaim → Prop
  | last {c : DelayClaim} (hwf : c.wellFormed = true) (ht : c.t = 1) : Made rule c []
  | half {c next : DelayClaim} {rest : List DelayClaim} (hwf : c.wellFormed = true)
      (hhalf : c.IsHalf rule next) (hmid : next.Midway) (hrest : Made rule next rest) :
      Made rule c (next :: rest)

theorem Accepted.wellFormed (h : Accepted rule c rest) : c.wellFormed = true := by
  cases h <;> assumption

theorem accepted_nil (hwf : c.wellFormed = true) (ht : c.t = 1) :
    Accepted rule c [] ↔ c.y = c.x * c.x % c.n ∧ c.v = c.y := by
  constructor
  · intro h
    cases h with
    | last _ _ hy hv => exact ⟨hy, hv⟩
  · intro ⟨hy, hv⟩
    exact .last hwf ht hy hv

theorem accepted_cons (hwf : c.wellFormed = true) (hhalf : c.IsHalf rule next) :
    Accepted rule c (next :: rest) ↔ Accepted rule next rest := by
  refine ⟨?_, .half hwf hhalf⟩
  intro h
  cases h with
  | half _ _ hrest => exact hrest

/-! ## The check -/

theorem checkForm_cons {i : Nat} {l : List DelayClaim} :
    checkForm n i (c :: l) = .ok () ↔
      c.n = n ∧ c.wellFormed = true ∧ checkForm n (i + 1) l = .ok () := by
  rw [checkForm]
  by_cases hn : c.n = n <;> by_cases hwf : c.wellFormed = true <;> simp [hn, hwf]

theorem checkChain_cons {i : Nat} (hwf : c.wellFormed = true) (hn : next.n = c.n) :
    checkChain rule i (c :: next :: rest) = .ok () ↔
      c.IsHalf rule next ∧ checkChain rule (i + 1) (next :: rest) = .ok () := by
  rw [checkChain, DelayClaim.halveBy, DelayClaim.halveAt_eq (DelayClaim.modulus_pos hwf),
    Except.bind]
  by_cases ht : c.t = 1
  · rw [if_pos ht]
    exact ⟨nofun, fun h => absurd ht h.1.delay_ne⟩
  rw [if_neg ht]
  split
  · rename_i hne
    refine ⟨nofun, ?_⟩
    intro h
    rcases hne with hx | hy | ht'
    · exact absurd h.1.x_eq hx
    · exact absurd h.1.y_eq hy
    · exact absurd h.1.t_eq ht'
  · rename_i heq
    simp only [ne_eq, not_or, not_not] at heq
    exact ⟨fun h => ⟨⟨hn, ht, heq.1, heq.2.1, heq.2.2⟩, h⟩, And.right⟩

theorem checkFinal_eq_ok (hwf : c.wellFormed = true) :
    checkFinal c = .ok () ↔ c.t = 1 ∧ c.y = c.x * c.x % c.n ∧ c.v = c.y := by
  rw [checkFinal, Delay.reduce_eq (DelayClaim.modulus_pos hwf), Except.bind]
  split
  · rename_i hne
    refine ⟨nofun, ?_⟩
    intro h
    rcases hne with ht | hy | hv
    · exact absurd h.1 ht
    · exact absurd h.2.1 hy
    · exact absurd h.2.2 hv
  · rename_i heq
    simp only [ne_eq, not_or, not_not] at heq
    exact ⟨fun _ => heq, fun _ => rfl⟩

/-- The three passes over a proof, taken claim by claim. -/
theorem passes_iff {i j : Nat} {d : DelayClaim} :
    (checkForm n i (c :: rest) = .ok () ∧ checkChain rule j (c :: rest) = .ok () ∧
        checkFinal ((c :: rest).getLastD d) = .ok ()) ↔
      c.n = n ∧ Accepted rule c rest := by
  induction rest generalizing c i j d with
  | nil =>
    rw [checkForm_cons, List.getLastD_cons, List.getLastD_nil]
    constructor
    · intro ⟨⟨hn, hwf, _⟩, _, hfinal⟩
      obtain ⟨ht, hy, hv⟩ := (checkFinal_eq_ok hwf).mp hfinal
      exact ⟨hn, .last hwf ht hy hv⟩
    · intro ⟨hn, h⟩
      cases h with
      | last hwf ht hy hv =>
      exact ⟨⟨hn, hwf, rfl⟩, rfl, (checkFinal_eq_ok hwf).mpr ⟨ht, hy, hv⟩⟩
  | cons next rest ih =>
    rw [checkForm_cons, List.getLastD_cons]
    -- The form of the next claim is known before the chain is looked at.
    constructor
    · intro ⟨⟨hn, hwf, hform⟩, hchain, hfinal⟩
      have hnext : next.n = c.n := (checkForm_cons.mp hform).1.trans hn.symm
      obtain ⟨hhalf, hchain⟩ := (checkChain_cons hwf hnext).mp hchain
      exact ⟨hn, .half hwf hhalf (ih.mp ⟨hform, hchain, hfinal⟩).2⟩
    · intro ⟨hn, h⟩
      cases h with
      | half hwf hhalf hrest =>
      have hnext : next.n = n := hhalf.n_eq.trans hn
      obtain ⟨hform, hchain, hfinal⟩ := ih.mpr ⟨hnext, hrest⟩
      exact ⟨⟨hn, hwf, hform⟩, (checkChain_cons hwf hhalf.n_eq).mpr ⟨hhalf, hchain⟩, hfinal⟩

theorem checkBy_cons : checkBy rule ⟨c :: rest⟩ = .ok () ↔ Accepted rule c rest := by
  rw [← (and_iff_right rfl : c.n = c.n ∧ Accepted rule c rest ↔ _),
    ← passes_iff (i := 0) (j := 0) (d := c), checkBy]
  simp only [bind, Except.bind]
  cases checkForm c.n 0 (c :: rest) with
  | error e => exact ⟨nofun, fun h => nomatch h.1⟩
  | ok =>
    cases checkChain rule 0 (c :: rest) with
    | error e => exact ⟨nofun, fun h => nomatch h.2.1⟩
    | ok => exact ⟨fun h => ⟨rfl, rfl, h⟩, fun h => h.2.2⟩

theorem checkBy_eq_ok {p : DelayProof} :
    p.checkBy rule = .ok () ↔ ∃ c rest, p = ⟨c :: rest⟩ ∧ Accepted rule c rest := by
  obtain ⟨claims⟩ := p
  cases claims with
  | nil => exact ⟨nofun, nofun⟩
  | cons c rest =>
    rw [checkBy_cons]
    constructor
    · intro h
      exact ⟨c, rest, rfl, h⟩
    · intro ⟨_, _, heq, h⟩
      cases heq
      exact h

/-! ## The proof that is made -/

/-- The claims from a constructed one on are those of its own proof. -/
theorem chain_eq {x y : Nat} {t : UInt64} (hc : DelayClaim.construct n x y t = .ok c)
    (hn : c.n = n) (ht : c.t = t) (hwf : c.wellFormed = true) :
    chain rule n x y t = (generateBy rule c).map DelayProof.claims := by
  subst hn ht
  rw [chain, hc, Except.bind, generateBy]
  simp only [hwf, Bool.not_true, Bool.false_eq_true, if_false]
  split
  · cases c.halveBy rule with
    | error e => rfl
    | ok next =>
      simp only [Except.bind]
      cases chain rule c.n next.1 next.2 (Delay.half c.t) <;> rfl
  · rfl

/-- The proof of a well-formed claim exists, and every midpoint after the first is
true. -/
theorem generateBy_made (rule : ChallengeRule) (hwf : c.wellFormed = true) :
    ∃ rest, generateBy rule c = .ok ⟨c :: rest⟩ ∧ Made rule c rest := by
  -- The recursion is the program's own, on the delay.
  induction hk : c.t.toNat using Nat.strongRecOn generalizing c with
  | ind k ih =>
  obtain ⟨hpos, hx, -, -⟩ := DelayClaim.wellFormed_iff.mp hwf
  have hn : 0 < c.n := by omega
  rw [generateBy]
  simp only [hwf, Bool.not_true, Bool.false_eq_true, if_false]
  split
  · rename_i hlong
    have hlt : 1 < c.t.toNat := UInt64.lt_iff_toNat_lt.mp hlong
    have hhalf := Delay.toNat_half c.t
    have ht : Delay.half c.t ≠ 0 := fun h => by
      rw [h] at hhalf
      simp at hhalf
      omega
    obtain ⟨next, hnext, hwfnext, hmid, hnn, hnx, hny, hnt⟩ := DelayClaim.construct_spec ht
      (Nat.mod_lt (c.x ^ rule c.x c.y c.v * c.v) hn)
      (Nat.mod_lt (c.v ^ rule c.x c.y c.v * c.y ^ c.foldPower) hn)
    obtain ⟨rest, hrest, hmade⟩ := ih next.t.toNat (by rw [hnt]; omega) hwfnext rfl
    refine ⟨next :: rest, ?_, .half hwf ⟨hnn, ?_, hnx, hny, hnt⟩ hmid hmade⟩
    · rw [DelayClaim.halveBy, DelayClaim.halveAt_eq hn, Except.bind]
      simp only [chain_eq hnext hnn hnt hwfnext, hrest, Except.map]
    · intro ht1
      rw [ht1] at hlt
      exact absurd hlt (by decide)
  · rename_i hshort
    have hle : ¬1 < c.t.toNat := fun h => hshort (UInt64.lt_iff_toNat_lt.mpr h)
    exact ⟨[], rfl, .last hwf (UInt64.toNat_inj.mp (by simp; omega))⟩

end DelayProof

end Beacon
