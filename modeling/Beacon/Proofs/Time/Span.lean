import Beacon.Proofs.Number.Binary64
import Beacon.Time.Span

/-
  Which spans do not exist. A time at a rate is a quotient rounded to binary64, where the
  numbers just below `2 ^ 64` are `2 ^ 11` apart: a count of steps within half of that of
  `2 ^ 64` is rounded up to `2 ^ 64` seconds, which no span has, at a rate of one step per
  second and at no other (`ofRate?_eq_none_iff`). Twice the time is at issue from half the
  steps on, or at a rate of two (`double?_eq_none_iff`). Both come from the one condition
  under which a time gets to a power of two of seconds (`Reaches`).
-/

namespace Beacon.Span

variable {steps rate : UInt64} {v : Dyadic} {s : Span}

theorem ofNanoseconds?_eq_none_iff {n : Nat} : ofNanoseconds? n = none ↔ limit ≤ n := by
  rw [ofNanoseconds?]
  split <;> simp <;> omega

theorem add?_ofSeconds_eq_none_iff (a b : UInt64) :
    (ofSeconds a).add? (ofSeconds b) = none ↔ 2 ^ 64 ≤ a.toNat + b.toNat := by
  rw [add?, ofNanoseconds?_eq_none_iff]
  simp only [ofSeconds, limit, perSecond, UInt64.size]
  omega

theorem ofDyadic?_eq_none_iff : ofDyadic? v = none ↔ v.AtLeast (2 ^ 64) := by
  have hwhole : limit ≤ v.numerator / v.denominator * perSecond ↔ v.AtLeast (2 ^ 64) :=
    (Nat.mul_le_mul_right_iff (by decide)).trans (Nat.le_div_iff_mul_le v.denominator_pos)
  rw [ofDyadic?, ← hwhole]
  split
  · exact iff_of_true rfl ‹_›
  · exact iff_of_false (Option.some_ne_none _) ‹_›

theorem nanoseconds_of_ofDyadic? (h : ofDyadic? v = some s) :
    s.nanoseconds = v.roundTimes perSecond := by
  rw [ofDyadic?] at h
  split at h
  · cases h
  · cases h
    rfl

theorem double?_eq_none_of_atLeast (h : ofDyadic? v = some s) (hv : v.AtLeast (2 ^ 63)) :
    s.double? = none := by
  have hround := hv.le_roundTimes perSecond
  rw [double?, ofNanoseconds?_eq_none_iff, nanoseconds_of_ofDyadic? h]
  simp only [limit, perSecond, UInt64.size] at hround ⊢
  omega

theorem double?_ne_none_of_atMost (h : ofDyadic? v = some s) (hv : v.AtMost (2 ^ 63 - 1)) :
    s.double? ≠ none := by
  have hround := hv.roundTimes_le perSecond
  rw [Ne, double?, ofNanoseconds?_eq_none_iff, nanoseconds_of_ofDyadic? h]
  simp only [limit, perSecond, UInt64.size] at hround ⊢
  omega

/-! ## Quotients at a rate -/

open Binary64

theorem ofNat_toNat_le (n : UInt64) : ofNat n.toNat ≤ 2 ^ 64 := ofNat_le_two_pow n.toNat_lt

theorem quotient_of_le_one (hrate : rate.toNat ≤ 1) :
    quotient steps.toNat (max rate.toNat 1) = nearest (ofNat steps.toNat) (2 ^ 0) := by
  rw [quotient, Nat.max_eq_right hrate]
  rfl

theorem quotient_of_eq_two (hrate : rate.toNat = 2) :
    quotient steps.toNat (max rate.toNat 1) = nearest (ofNat steps.toNat) (2 ^ 1) := by
  rw [quotient, hrate]
  rfl

theorem three_le_ofNat {n : Nat} (h : 3 ≤ n) : 3 ≤ ofNat n := by
  rcases Nat.eq_or_lt_of_le h with rfl | hfour
  · decide
  · have hlog : 2 ≤ n.log2 := (Nat.le_log2 (by omega)).mpr hfour
    have hpow : 2 ^ 2 ≤ 2 ^ n.log2 := Nat.pow_le_pow_right (by decide) hlog
    have hround := two_pow_log2_le_ofNat (show n ≠ 0 by omega)
    omega

/-- At three steps per second or more, no time comes near `2 ^ 63` seconds. -/
theorem quotient_atMost (steps : UInt64) (hrate : 3 ≤ rate.toNat) :
    (quotient steps.toNat (max rate.toNat 1)).AtMost (2 ^ 63 - 2 ^ 11) := by
  have hsteps := ofNat_toNat_le steps
  have hdivisor : 3 ≤ ofNat rate.toNat := three_le_ofNat hrate
  have hlog : 1 ≤ (ofNat rate.toNat).log2 := (Nat.le_log2 (by omega)).mpr (by omega)
  rw [quotient, Nat.max_eq_left (by omega)]
  refine atMost_nearest (by omega) ?_ ?_
  · have hplaces : (ofNat steps.toNat).log2 - (ofNat rate.toNat).log2 - 52 ≤ 11 := by
      by_cases hzero : ofNat steps.toNat = 0
      · rw [hzero, Nat.log2_zero]
        omega
      · have hlast := (Nat.log2_lt hzero).mpr (Nat.lt_of_le_of_lt hsteps (by decide : _ < 2 ^ 65))
        omega
    exact Nat.dvd_trans (Nat.pow_dvd_pow 2 hplaces) (by decide)
  · calc ofNat steps.toNat ≤ (2 ^ 63 - 2 ^ 11) * 3 := Nat.le_trans hsteps (by decide)
      _ ≤ (2 ^ 63 - 2 ^ 11) * ofNat rate.toNat := Nat.mul_le_mul_left _ hdivisor

variable {e : Nat}

/-- So many steps take `2 ^ e` seconds or more in binary64. -/
def Reaches (steps rate : UInt64) (e : Nat) : Prop :=
  (rate.toNat ≤ 1 ∧ 2 ^ e ≤ steps.toNat + 2 ^ (e - 54)) ∨
    (rate.toNat = 2 ∧ 2 ^ (e + 1) ≤ steps.toNat + 2 ^ (e + 1 - 54))

theorem Reaches.atLeast (he : 54 ≤ e) (h : Reaches steps rate e) :
    (quotient steps.toNat (max rate.toNat 1)).AtLeast (2 ^ e) := by
  have hbelow (j : Nat) : ofNat steps.toNat < 2 ^ (e + j + 52) :=
    Nat.lt_of_le_of_lt (ofNat_toNat_le steps) (Nat.pow_lt_pow_right (by decide) (by omega))
  rcases h with ⟨hone, hlong⟩ | ⟨htwo, hlong⟩
  · rw [quotient_of_le_one hone]
    have hreached := (two_pow_le_ofNat_iff he).mpr hlong
    exact atLeast_nearest_two_pow (by omega) hreached (hbelow 0)
  · rw [quotient_of_eq_two htwo]
    have hreached := (two_pow_le_ofNat_iff (by omega)).mpr hlong
    exact atLeast_nearest_two_pow (by omega) hreached (hbelow 1)

/-- What does not reach `2 ^ e` seconds stays a second below them, since near them binary64
has whole numbers only. -/
theorem atMost_of_not_reaches (he : 63 ≤ e) (h : ¬Reaches steps rate e) :
    (quotient steps.toNat (max rate.toNat 1)).AtMost (2 ^ e - 1) := by
  have hlast : 2 ^ e - 2 ^ (e - 53) ≤ 2 ^ e - 1 := Nat.sub_le_sub_left (Nat.two_pow_pos _) _
  rcases (by omega : rate.toNat ≤ 1 ∨ rate.toNat = 2 ∨ 3 ≤ rate.toNat) with hone | htwo | hmore
  · rw [quotient_of_le_one hone]
    have hshort := Nat.lt_of_not_le fun hlong => h (.inl ⟨hone, hlong⟩)
    exact (atMost_nearest_two_pow (by omega) (ofNat_le_of_lt (by omega) hshort)).mono hlast
  · rw [quotient_of_eq_two htwo]
    have hshort := Nat.lt_of_not_le fun hlong => h (.inr ⟨htwo, hlong⟩)
    have hround := ofNat_le_of_lt (by omega) hshort
    rw [show e + 1 - 53 = e - 53 + 1 by omega] at hround
    exact (atMost_nearest_two_pow (by omega) hround).mono hlast
  · have hpower : 2 ^ 63 ≤ 2 ^ e := Nat.pow_le_pow_right (by decide) he
    exact (quotient_atMost steps hmore).mono (by omega)

theorem atLeast_iff_reaches (he : 63 ≤ e) :
    (quotient steps.toNat (max rate.toNat 1)).AtLeast (2 ^ e) ↔ Reaches steps rate e := by
  refine ⟨fun h => ?_, fun h => h.atLeast (by omega)⟩
  by_contra hnot
  exact (atMost_of_not_reaches he hnot).not_atLeast (Nat.sub_one_lt (Nat.two_pow_pos e).ne') h

/-! ## Times at a rate -/

theorem ofRate?_eq_none_iff (steps rate : UInt64) :
    ofRate? steps rate = none ↔ rate.toNat ≤ 1 ∧ 2 ^ 64 ≤ steps.toNat + 2 ^ 10 := by
  have hsteps := steps.toNat_lt
  rw [ofRate?, ofDyadic?_eq_none_iff, atLeast_iff_reaches (by decide), Reaches]
  omega

theorem double?_eq_none_iff (h : ofRate? steps rate = some s) :
    s.double? = none ↔ (rate.toNat ≤ 1 ∧ 2 ^ 63 ≤ steps.toNat + 2 ^ 9) ∨
      (rate.toNat = 2 ∧ 2 ^ 64 ≤ steps.toNat + 2 ^ 10) := by
  rw [ofRate?] at h
  change s.double? = none ↔ Reaches steps rate 63
  by_cases hreaches : Reaches steps rate 63
  · exact iff_of_true (double?_eq_none_of_atLeast h (hreaches.atLeast (by decide))) hreaches
  · have hmost := atMost_of_not_reaches (by decide) hreaches
    exact iff_of_false (double?_ne_none_of_atMost h hmost) hreaches

end Beacon.Span
