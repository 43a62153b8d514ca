import Beacon.Proofs.Delay.Chain

/-
  What checking a proof can answer, whoever made it. Arithmetic modulo zero has no result,
  and a proof may name any modulus, none of its values need be remainders, and it may have
  any number of claims. Yet every check either passes or refuses by an error that says what
  is wrong with the proof, and of which of its claims (`Concerns`).

  This hangs on the order of the checks. The form of all claims is looked at first, and only
  then is anything halved, so that no modulus is zero where one is used (`checkChain_answered`
  needs what `checkForm` found). The claims of a window are read by their places, and both
  are there (`checkWindows_windows`).
-/

namespace Beacon

/-- The refusals of a proof of so many claims: that there are none, that the last one is
false, and those that name one of them. Arithmetic without a result is not among them. -/
def DelayError.Concerns (claims : Nat) : DelayError → Prop
  | .emptyProof => claims = 0
  | .modulusMismatch i => i < claims
  | .malformedClaim i => i < claims
  | .brokenChain i => i < claims
  | .finalClaim => 0 < claims
  | _ => False

namespace DelayProof

variable {rule : ChallengeRule} {c next : DelayClaim} {rest l : List DelayClaim} {n i k : Nat}

/-- A check of a proof of so many claims that passes or refuses. -/
def Answered (claims : Nat) (r : Except DelayError Unit) : Prop :=
  r = .ok () ∨ ∃ e, r = .error e ∧ e.Concerns claims

namespace Answered

theorem pass : Answered k (.ok ()) := .inl rfl

theorem refuse {e : DelayError} (h : e.Concerns k) : Answered k (.error e) := .inr ⟨e, rfl, h⟩

theorem bind {r s : Except DelayError Unit} (hr : Answered k r)
    (hs : r = .ok () → Answered k s) : Answered k (r.bind fun _ => s) := by
  rcases hr with rfl | ⟨e, rfl, he⟩
  · exact hs rfl
  · exact refuse he

end Answered

/-! ## The form of the claims -/

theorem checkForm_answered (n i : Nat) (l : List DelayClaim) :
    Answered (i + l.length) (checkForm n i l) := by
  induction l generalizing i with
  | nil => exact .pass
  | cons c l ih =>
    have hplace : i < i + (c :: l).length := Nat.lt_add_of_pos_right (Nat.succ_pos _)
    rw [checkForm]
    split
    · exact .refuse hplace
    split
    · exact .refuse hplace
    · rw [List.length_cons, Nat.add_comm l.length, ← Nat.add_assoc]
      exact ih (i + 1)

theorem forall_of_checkForm (h : checkForm n i l = .ok ()) :
    ∀ c ∈ l, c.n = n ∧ c.wellFormed = true := by
  induction l generalizing i with
  | nil => exact fun c hc => nomatch hc
  | cons c l ih =>
    obtain ⟨hn, hwf, hrest⟩ := checkForm_cons.mp h
    intro d hd
    rcases List.mem_cons.mp hd with rfl | hd
    · exact ⟨hn, hwf⟩
    · exact ih hrest d hd

/-! ## The chain -/

/-- Claims of good form can all be halved, and a chain of them is broken only where a claim
is. -/
theorem checkChain_answered (rule : ChallengeRule) (i : Nat)
    (hform : ∀ c ∈ l, c.wellFormed = true) : Answered (i + l.length) (checkChain rule i l) := by
  induction l generalizing i with
  | nil => exact .pass
  | cons c l ih =>
    cases l with
    | nil => exact .pass
    | cons next rest =>
      obtain ⟨hwf, hform⟩ := List.forall_mem_cons.mp hform
      have hplace : i + 1 < i + (c :: next :: rest).length := by
        rw [List.length_cons, List.length_cons]
        omega
      rw [checkChain]
      split
      · exact .refuse hplace
      rw [DelayClaim.halveBy, DelayClaim.halveAt_eq (DelayClaim.modulus_pos hwf), Except.bind]
      split
      · exact .refuse hplace
      · have hrest := ih (i + 1) hform
        rwa [Nat.add_assoc, Nat.add_comm 1] at hrest

theorem checkFinal_answered (hwf : c.wellFormed = true) (hk : 0 < k) :
    Answered k (checkFinal c) := by
  rw [checkFinal, Delay.reduce_eq (DelayClaim.modulus_pos hwf), Except.bind]
  split
  · exact .refuse hk
  · exact .pass

theorem checkBy_answered (rule : ChallengeRule) (p : DelayProof) :
    Answered p.claims.length (p.checkBy rule) := by
  obtain ⟨claims⟩ := p
  cases claims with
  | nil => exact .refuse (e := .emptyProof) rfl
  | cons c rest =>
    rw [checkBy]
    have hform := checkForm_answered c.n 0 (c :: rest)
    rw [Nat.zero_add] at hform
    refine hform.bind fun hpasses => ?_
    have hwf : ∀ d ∈ c :: rest, d.wellFormed = true :=
      fun d hd => (forall_of_checkForm hpasses d hd).2
    have hchain := checkChain_answered rule 0 hwf
    rw [Nat.zero_add] at hchain
    refine hchain.bind fun _ => checkFinal_answered (hwf _ ?_) (Nat.succ_pos _)
    rw [List.getLastD_cons]
    exact List.getLastD_mem_cons

/-! ## Windows -/

/-- The runs of `k` neighbours in a list, from the front. -/
def windows {α : Type} (k : Nat) : List α → List (List α)
  | [] => []
  | a :: l => if k ≤ (a :: l).length then (a :: l).take k :: windows k l else []

/-- Checks that in every window the second claim is the half of the first, counting from
claim `i` on. The claims are read by their places, and there is no answer if a place is not
in the window. -/
def checkWindows (rule : ChallengeRule) :
    Nat → List (List DelayClaim) → Option (Except DelayError Unit)
  | _, [] => some (.ok ())
  | i, w :: ws => do
    let c ← w[0]?
    let next ← w[1]?
    if c.t = 1 then return .error (.brokenChain (i + 1))
    match c.halveBy rule with
    | .error e => return .error e
    | .ok h =>
      if next.x ≠ h.1 ∨ next.y ≠ h.2 ∨ next.t ≠ Delay.half c.t then
        return .error (.brokenChain (i + 1))
      else checkWindows rule (i + 1) ws

/-- A window of two claims has both, so the check by windows has an answer, the one of the
check along the chain. -/
theorem checkWindows_windows (rule : ChallengeRule) (i : Nat) (l : List DelayClaim) :
    checkWindows rule i (windows 2 l) = some (checkChain rule i l) := by
  induction l generalizing i with
  | nil => rfl
  | cons c l ih =>
    cases l with
    | nil => rfl
    | cons next rest =>
      have hwindows : windows 2 (c :: next :: rest) = [c, next] :: windows 2 (next :: rest) :=
        if_pos (Nat.le_add_left 2 rest.length)
      rw [hwindows, checkWindows, checkChain]
      by_cases ht : c.t = 1
      · simp [ht]
      cases hhalf : c.halveBy rule with
      | error e => simp [ht, hhalf, Except.bind]
      | ok h =>
        simp only [List.getElem?_cons_zero, List.getElem?_cons_succ, Option.bind_eq_bind,
          Option.bind_some, ht, if_false, hhalf, Except.bind, ih]
        split <;> rfl

end DelayProof

end Beacon
