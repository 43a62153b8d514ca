import Beacon.Proofs.Delay.Power

/-
  The delay function as a loop, and the loop that can be stopped. A delay can be gone through
  in parts, since squaring goes on from where it was left (`evaluate_evaluate`).

  The loop that can be stopped looks at the signal before every 1024th squaring, and nowhere
  else. If it sees the signal given (`StopSignal.Seen`) it stops there, and else it has done all
  squarings and nothing but these (`squaringsUntil_of_seen`, `squaringsUntil_of_unseen`). So a
  signal can keep the result back but not change it. A signal that is never taken back is seen
  if it is given at the last look (`StopSignal.Latched.seen_iff`).
-/

namespace Beacon.Delay

variable {stop : StopSignal} {n x y : Nat} {t : UInt64}

/-! ## Delays one after the other -/

theorem squarings_add (n a b y : Nat) :
    squarings n (a + b) y = squarings n b (squarings n a y) := by
  induction a generalizing y with
  | zero => rw [Nat.zero_add, squarings]
  | succ a ih => rw [Nat.succ_add, squarings, squarings, ih]

theorem evaluate_evaluate (hn : 0 < n) (x : Nat) {a b : UInt64}
    (hab : a.toNat + b.toNat = t.toNat) :
    (evaluate n x a).bind (fun y => evaluate n y b) = evaluate n x t := by
  have hfirst : squarings n a.toNat (x % n) % n = squarings n a.toNat (x % n) := by
    rw [squarings_eq, Nat.mod_mod]
  simp only [evaluate, reduce_eq hn, Except.map, Except.bind]
  rw [hfirst, ← squarings_add, hab]

/-! ## What the loop sees -/

namespace StopSignal

/-- The signal is given at one of the looks that are taken in `left` squarings, counted from
squaring `i` on. -/
def Seen (stop : StopSignal) (i left : Nat) : Prop :=
  ∃ j, i ≤ j ∧ j < i + left ∧ j % checkInterval = 0 ∧ stop j = true

theorem not_seen_zero (stop : StopSignal) (i : Nat) : ¬stop.Seen i 0 := by
  rintro ⟨j, hle, hlt, -⟩
  omega

theorem seen_succ {i left : Nat} : stop.Seen i (left + 1) ↔
    (i % checkInterval = 0 ∧ stop i = true) ∨ stop.Seen (i + 1) left := by
  constructor
  · rintro ⟨j, hle, hlt, hlook, hgiven⟩
    rcases Nat.eq_or_lt_of_le hle with rfl | hlater
    · exact .inl ⟨hlook, hgiven⟩
    · exact .inr ⟨j, hlater, by omega, hlook, hgiven⟩
  · rintro (⟨hlook, hgiven⟩ | ⟨j, hle, hlt, hlook, hgiven⟩)
    · exact ⟨i, Nat.le_refl i, by omega, hlook, hgiven⟩
    · exact ⟨j, by omega, by omega, hlook, hgiven⟩

/-- From the start on, the looks are before the squarings whose number 1024 divides. -/
theorem seen_start {t : Nat} : stop.Seen 0 t ↔ ∃ i < t, 1024 ∣ i ∧ stop i = true := by
  constructor
  · rintro ⟨i, -, hlt, hlook, hgiven⟩
    exact ⟨i, by omega, Nat.dvd_of_mod_eq_zero hlook, hgiven⟩
  · rintro ⟨i, hlt, hlook, hgiven⟩
    exact ⟨i, Nat.zero_le i, by omega, Nat.mod_eq_zero_of_dvd hlook, hgiven⟩

/-- A signal that is not taken back. -/
def Latched (stop : StopSignal) : Prop := ∀ i j, i ≤ j → stop i = true → stop j = true

/-- The number of the squaring with the last look at the signal. -/
def lastLook (t : Nat) : Nat := (t - 1) / 1024 * 1024

/-- A signal that is not taken back is seen exactly if it is given at the last look. -/
theorem Latched.seen_iff (h : stop.Latched) {t : Nat} :
    stop.Seen 0 t ↔ 0 < t ∧ stop (lastLook t) = true := by
  rw [seen_start]
  constructor
  · rintro ⟨i, hlt, hlook, hgiven⟩
    have hlast : i ≤ lastLook t := by
      obtain ⟨k, rfl⟩ := hlook
      rw [lastLook]
      omega
    exact ⟨by omega, h i (lastLook t) hlast hgiven⟩
  · rintro ⟨hpos, hgiven⟩
    refine ⟨lastLook t, ?_, Nat.dvd_mul_left 1024 _, hgiven⟩
    rw [lastLook]
    omega

end StopSignal

/-! ## The loop that can be stopped -/

theorem squaringsUntil_of_seen {left i : Nat} (h : stop.Seen i left) (y : Nat) :
    squaringsUntil stop n left i y = .error .cancelled := by
  induction left generalizing i y with
  | zero => exact absurd h (stop.not_seen_zero i)
  | succ left ih =>
    rw [squaringsUntil]
    split
    · rfl
    · rename_i hgoes
      refine ih ((StopSignal.seen_succ.mp h).resolve_left fun hnow => hgoes ?_) _
      simp [hnow]

theorem squaringsUntil_of_unseen {left i : Nat} (h : ¬stop.Seen i left) (y : Nat) :
    squaringsUntil stop n left i y = .ok (squarings n left y) := by
  induction left generalizing i y with
  | zero => rfl
  | succ left ih =>
    obtain ⟨hnow, hlater⟩ := not_or.mp (mt StopSignal.seen_succ.mpr h)
    rw [squaringsUntil, squarings]
    split
    · rename_i hstops
      exact absurd (by simpa using hstops) hnow
    · exact ih hlater _

theorem evaluateUntil_of_seen (hn : 0 < n) (h : stop.Seen 0 t.toNat) :
    evaluateUntil stop n x t = .error .cancelled := by
  rw [evaluateUntil, reduce_eq hn, Except.bind, squaringsUntil_of_seen h]

theorem evaluateUntil_of_unseen (hn : 0 < n) (h : ¬stop.Seen 0 t.toNat) :
    evaluateUntil stop n x t = evaluate n x t := by
  rw [evaluateUntil, evaluate, reduce_eq hn, Except.bind, Except.map, squaringsUntil_of_unseen h]

theorem evaluateUntil_eq_cancelled (hn : 0 < n) :
    evaluateUntil stop n x t = .error .cancelled ↔ stop.Seen 0 t.toNat := by
  constructor
  · intro hcancelled
    by_contra hunseen
    rw [evaluateUntil_of_unseen hn hunseen, evaluate_eq hn] at hcancelled
    cases hcancelled
  · exact evaluateUntil_of_seen hn

/-- Modulo any number but zero, the delay function of `x` is the power of `x` with the exponent
`2 ^ t`, and can be gone through in parts. With a signal to stop it comes to the same result or
is cancelled, whenever the signal is given, and is cancelled exactly if the signal is given
before a squaring whose number 1024 divides; if the signal is not taken back, exactly if it is
given before the last of these. -/
theorem evaluate_exact_or_cancelled (hn : 0 < n) (x : Nat) (t : UInt64) :
    evaluate n x t = .ok (x ^ 2 ^ t.toNat % n) ∧
      (∀ a b : UInt64, a.toNat + b.toNat = t.toNat →
        (evaluate n x a).bind (fun y => evaluate n y b) = evaluate n x t) ∧
      ∀ stop : StopSignal,
        (evaluateUntil stop n x t = evaluate n x t ∨
          evaluateUntil stop n x t = .error .cancelled) ∧
        (evaluateUntil stop n x t = .error .cancelled ↔
          ∃ i < t.toNat, 1024 ∣ i ∧ stop i = true) ∧
        (stop.Latched → (evaluateUntil stop n x t = .error .cancelled ↔
          0 < t.toNat ∧ stop (StopSignal.lastLook t.toNat) = true)) := by
  refine ⟨evaluate_eq hn x t, fun a b hab => evaluate_evaluate hn x hab, ?_⟩
  intro stop
  refine ⟨?_, ?_, ?_⟩
  · by_cases hseen : stop.Seen 0 t.toNat
    · exact .inr (evaluateUntil_of_seen hn hseen)
    · exact .inl (evaluateUntil_of_unseen hn hseen)
  · rw [evaluateUntil_eq_cancelled hn, StopSignal.seen_start]
  · intro hlatched
    rw [evaluateUntil_eq_cancelled hn, hlatched.seen_iff]

/-- A signal that is given right after the start is not seen in 1024 squarings, and is in one
more. -/
theorem evaluate_exact_or_cancelled_seven :
    let stop : StopSignal := fun i => decide (1 ≤ i)
    0 < 7 ∧ stop.Latched ∧ evaluate 7 3 3 = .ok 2 ∧
      (evaluate 7 3 1000).bind (fun y => evaluate 7 y 25) = evaluate 7 3 1025 ∧
      evaluateUntil stop 7 3 1024 = evaluate 7 3 1024 ∧
      evaluateUntil stop 7 3 1025 = .error .cancelled := by
  intro stop
  have hn : 0 < 7 := by decide
  have hlatched : stop.Latched := by
    intro i j hij hi
    simp only [stop, decide_eq_true_eq] at hi ⊢
    omega
  obtain ⟨hpower, -, -⟩ := evaluate_exact_or_cancelled hn 3 3
  obtain ⟨-, -, hfirst⟩ := evaluate_exact_or_cancelled hn 3 1024
  obtain ⟨-, hparts, hsecond⟩ := evaluate_exact_or_cancelled hn 3 1025
  refine ⟨hn, hlatched, hpower, hparts 1000 25 (by decide), ?_, ?_⟩
  · obtain ⟨hexact, -, hlast⟩ := hfirst stop
    refine hexact.resolve_right fun hcancelled => ?_
    obtain ⟨-, hgiven⟩ := (hlast hlatched).mp hcancelled
    simp [stop, StopSignal.lastLook] at hgiven
  · obtain ⟨-, hcancelled, -⟩ := hsecond stop
    exact hcancelled.mpr ⟨1024, by decide, Nat.dvd_refl 1024, rfl⟩

end Beacon.Delay
