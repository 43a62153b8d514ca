import Beacon.Number.Binary64
import Mathlib.Algebra.Order.Ring.Nat
import Mathlib.Tactic.Ring
import Mathlib.Tactic.SplitIfs

/-
  How far rounding to binary64 moves a number. It never passes a value that binary64 has, so
  a quotient that is at least, or at most, such a value still is when it is rounded
  (`atLeast_nearest`, `atMost_nearest`); whole numbers are such values if they are multiples
  of the last place that is kept.

  Numbers just below a power of two become that power from half a last place below it on,
  since the tie goes to the power (`two_pow_le_ofNat_iff`), and all others stay a last place
  below it (`ofNat_le_of_lt`).
-/

namespace Beacon

variable {a b k m n f : Nat}

/-! ## Rounded quotients -/

theorem roundDiv_cases (a b : Nat) :
    (roundDiv a b = a / b ∧ 2 * (a % b) ≤ b) ∨ (roundDiv a b = a / b + 1 ∧ b ≤ 2 * (a % b)) := by
  simp only [roundDiv]
  split
  · exact .inl ⟨rfl, by omega⟩
  split
  · exact .inr ⟨rfl, by omega⟩
  · rcases Nat.mod_two_eq_zero_or_one (a / b) with heven | hodd
    · exact .inl ⟨by omega, by omega⟩
    · exact .inr ⟨by omega, by omega⟩

theorem le_roundDiv_of_mul_le (hb : 0 < b) (h : k * b ≤ a) : k ≤ roundDiv a b := by
  have hdiv : k ≤ a / b := (Nat.le_div_iff_mul_le hb).mpr h
  rcases roundDiv_cases a b with ⟨heq, -⟩ | ⟨heq, -⟩ <;> omega

theorem roundDiv_le_of_le_mul (hb : 0 < b) (h : a ≤ k * b) : roundDiv a b ≤ k := by
  rcases Nat.lt_or_ge (a / b) k with hlt | hge
  · rcases roundDiv_cases a b with ⟨heq, -⟩ | ⟨heq, -⟩ <;> omega
  · -- The quotient is `k` with no remainder.
    obtain rfl : a = k * b := Nat.le_antisymm h ((Nat.le_div_iff_mul_le hb).mp hge)
    rw [roundDiv, Nat.mul_mod_left, Nat.mul_div_cancel k hb, if_pos (by omega)]

theorem le_roundDiv_iff_of_even (hb : 0 < b) (heven : k % 2 = 0) :
    k ≤ roundDiv a b ↔ 2 * (k * b) ≤ 2 * a + b := by
  have hdiv := Nat.div_add_mod a b
  have hmod := Nat.mod_lt a hb
  rw [Nat.mul_comm] at hdiv
  rcases Nat.lt_trichotomy k (a / b + 1) with hlt | rfl | hgt
  · have hle : k * b ≤ a / b * b := Nat.mul_le_mul_right b (Nat.le_of_lt_succ hlt)
    exact iff_of_true (le_roundDiv_of_mul_le hb (by omega)) (by omega)
  · -- The quotient is less than one below `k`; at half, the tie goes to `k`.
    have hsucc : (a / b + 1) * b = a / b * b + b := Nat.succ_mul _ _
    simp only [roundDiv]
    split
    · exact iff_of_false (by omega) (by omega)
    split
    · exact iff_of_true (Nat.le_refl _) (by omega)
    · exact iff_of_true (by omega) (by omega)
  · have hge : (a / b + 2) * b ≤ k * b := Nat.mul_le_mul_right b hgt
    have hsucc : (a / b + 2) * b = a / b * b + 2 * b := Nat.add_mul _ _ _
    refine iff_of_false ?_ (by omega)
    rcases roundDiv_cases a b with ⟨heq, -⟩ | ⟨heq, -⟩ <;> omega

/-! ## Values between whole numbers -/

namespace Dyadic

variable {d : Dyadic}

/-- The value is a whole number or above it. -/
def AtLeast (d : Dyadic) (m : Nat) : Prop := m * d.denominator ≤ d.numerator

/-- The value is a whole number or below it. -/
def AtMost (d : Dyadic) (m : Nat) : Prop := d.numerator ≤ m * d.denominator

theorem denominator_eq (d : Dyadic) : d.denominator = 2 ^ d.places.toNat := by
  rw [denominator, Nat.shiftLeft_eq, Nat.one_mul]

theorem numerator_eq (d : Dyadic) : d.numerator = d.digits * 2 ^ (-d.places).toNat := by
  rw [numerator, Nat.shiftLeft_eq]

theorem denominator_pos (d : Dyadic) : 0 < d.denominator := by
  rw [denominator_eq]
  exact Nat.two_pow_pos _

theorem AtMost.mono (h : d.AtMost m) (hmn : m ≤ n) : d.AtMost n :=
  Nat.le_trans h (Nat.mul_le_mul_right _ hmn)

theorem AtMost.not_atLeast (h : d.AtMost m) (hmn : m < n) : ¬d.AtLeast n := by
  intro hn
  have hlt : m * d.denominator < n * d.denominator :=
    Nat.mul_lt_mul_of_pos_right hmn d.denominator_pos
  exact absurd (Nat.le_trans hn h) (Nat.not_le.mpr hlt)

theorem AtLeast.le_roundTimes (h : d.AtLeast m) (f : Nat) : m * f ≤ d.roundTimes f := by
  refine le_roundDiv_of_mul_le d.denominator_pos ?_
  calc m * f * d.denominator = m * d.denominator * f := Nat.mul_right_comm _ _ _
    _ ≤ d.numerator * f := Nat.mul_le_mul_right f h

theorem AtMost.roundTimes_le (h : d.AtMost m) (f : Nat) : d.roundTimes f ≤ m * f := by
  refine roundDiv_le_of_le_mul d.denominator_pos ?_
  calc d.numerator * f ≤ m * d.denominator * f := Nat.mul_le_mul_right f h
    _ = m * f * d.denominator := Nat.mul_right_comm _ _ _

end Dyadic

namespace Binary64

theorem scaled_eq (a b : Nat) (places : Int) :
    scaled a b places = roundDiv (a * 2 ^ places.toNat) (b * 2 ^ (-places).toNat) := by
  rw [scaled, Nat.shiftLeft_eq, Nat.shiftLeft_eq]

/-- No more places are dropped than the quotient has above 53. -/
theorem exists_places (ha : a ≠ 0) (b : Nat) : ∃ places : Int,
    nearest a b = ⟨scaled a b places, places⟩ ∧ (-places).toNat ≤ a.log2 - b.log2 - 52 := by
  refine ⟨_, by rw [nearest, if_neg ha], ?_⟩
  simp only [placesFor]
  split_ifs <;> omega

/-- A whole number at most the quotient is at most its value in binary64, if it is a
multiple of the last place kept. -/
theorem atLeast_nearest (hb : 0 < b) (hm : 2 ^ (a.log2 - b.log2 - 52) ∣ m) (h : m * b ≤ a) :
    (nearest a b).AtLeast m := by
  by_cases ha : a = 0
  · subst ha
    obtain rfl : m = 0 := (Nat.mul_eq_zero.mp (Nat.le_zero.mp h)).resolve_right (by omega)
    exact Nat.le_trans (Nat.le_of_eq (Nat.zero_mul _)) (Nat.zero_le _)
  obtain ⟨places, hnearest, hplaces⟩ := exists_places ha b
  obtain ⟨k, rfl⟩ := Nat.dvd_trans (Nat.pow_dvd_pow 2 hplaces) hm
  rw [Dyadic.AtLeast, Dyadic.denominator_eq, Dyadic.numerator_eq, hnearest, scaled_eq]
  dsimp only
  -- Places are added by the factor `u` or dropped by the divisor `w`, of which `m` is a multiple.
  generalize 2 ^ places.toNat = u
  have hw : 0 < 2 ^ (-places).toNat := Nat.two_pow_pos _
  generalize 2 ^ (-places).toNat = w at h hw ⊢
  have hround : k * u ≤ roundDiv (a * u) (b * w) := by
    refine le_roundDiv_of_mul_le (Nat.mul_pos hb hw) ?_
    calc k * u * (b * w) = w * k * b * u := by ring
      _ ≤ a * u := Nat.mul_le_mul_right u h
  calc w * k * u = k * u * w := by ring
    _ ≤ roundDiv (a * u) (b * w) * w := Nat.mul_le_mul_right w hround

theorem atMost_nearest (hb : 0 < b) (hm : 2 ^ (a.log2 - b.log2 - 52) ∣ m) (h : a ≤ m * b) :
    (nearest a b).AtMost m := by
  by_cases ha : a = 0
  · subst ha
    exact Nat.zero_le _
  obtain ⟨places, hnearest, hplaces⟩ := exists_places ha b
  obtain ⟨k, rfl⟩ := Nat.dvd_trans (Nat.pow_dvd_pow 2 hplaces) hm
  rw [Dyadic.AtMost, Dyadic.denominator_eq, Dyadic.numerator_eq, hnearest, scaled_eq]
  dsimp only
  generalize 2 ^ places.toNat = u
  have hw : 0 < 2 ^ (-places).toNat := Nat.two_pow_pos _
  generalize 2 ^ (-places).toNat = w at h hw ⊢
  have hround : roundDiv (a * u) (b * w) ≤ k * u := by
    refine roundDiv_le_of_le_mul (Nat.mul_pos hb hw) ?_
    calc a * u ≤ w * k * b * u := Nat.mul_le_mul_right u h
      _ = k * u * (b * w) := by ring
  calc roundDiv (a * u) (b * w) * w ≤ k * u * w := Nat.mul_le_mul_right w hround
    _ = w * k * u := by ring

/-! ## Natural numbers -/

theorem le_ofNat (hm : 2 ^ (a.log2 - 52) ∣ m) (h : m ≤ a) : m ≤ ofNat a := by
  have hvalue : (nearest a 1).AtLeast m :=
    atLeast_nearest Nat.one_pos hm ((Nat.mul_one m).trans_le h)
  exact (Nat.mul_one m).symm.trans_le (hvalue.le_roundTimes 1)

theorem ofNat_le (hm : 2 ^ (a.log2 - 52) ∣ m) (h : a ≤ m) : ofNat a ≤ m := by
  have hvalue : (nearest a 1).AtMost m :=
    atMost_nearest Nat.one_pos hm (h.trans_eq (Nat.mul_one m).symm)
  exact (hvalue.roundTimes_le 1).trans_eq (Nat.mul_one m)

theorem two_pow_log2_le_ofNat (ha : a ≠ 0) : 2 ^ a.log2 ≤ ofNat a :=
  le_ofNat (Nat.pow_dvd_pow 2 (Nat.sub_le _ _)) (Nat.log2_self_le ha)

theorem ofNat_le_two_pow {e : Nat} (h : a < 2 ^ e) : ofNat a ≤ 2 ^ e := by
  by_cases ha : a = 0
  · subst ha
    exact Nat.zero_le _
  have hlog : a.log2 < e := (Nat.log2_lt ha).mpr h
  exact ofNat_le (Nat.pow_dvd_pow 2 (by omega)) (Nat.le_of_lt h)

theorem ofNat_eq (hlog : 52 ≤ a.log2) :
    ofNat a = roundDiv a (2 ^ (a.log2 - 52)) * 2 ^ (a.log2 - 52) := by
  have ha : a ≠ 0 := by
    rintro rfl
    exact absurd hlog (by decide)
  have hplaces : placesFor a 1 = -((a.log2 - 52 : Nat) : Int) := by
    rw [placesFor, show Nat.log2 1 = 0 from rfl]
    omega
  have hup : (-((a.log2 - 52 : Nat) : Int)).toNat = 0 := by omega
  have hdown : (- -((a.log2 - 52 : Nat) : Int)).toNat = a.log2 - 52 := by omega
  have hfull : ¬a <<< 0 < 1 <<< (52 + (a.log2 - 52)) := by
    rw [Nat.shiftLeft_zero, Nat.one_shiftLeft, Nat.add_sub_cancel' hlog]
    exact Nat.not_lt.mpr (Nat.log2_self_le ha)
  have hone (c : Nat) : roundDiv c 1 = c :=
    Nat.le_antisymm (roundDiv_le_of_le_mul Nat.one_pos (Nat.le_of_eq (Nat.mul_one c).symm))
      (le_roundDiv_of_mul_le Nat.one_pos (Nat.le_of_eq (Nat.mul_one c)))
  have hnearest : nearest a 1 = ⟨scaled a 1 (placesFor a 1), placesFor a 1⟩ := by
    rw [nearest, if_neg ha]
    simp only [hplaces, hup, hdown, if_neg hfull]
  rw [ofNat, Dyadic.roundTimes, Dyadic.denominator_eq, Dyadic.numerator_eq, hnearest, scaled_eq]
  simp only [hplaces, hup, hdown, pow_zero, Nat.mul_one, Nat.one_mul, hone]

variable {e : Nat}

/-- Just below a power of two, the power is the nearest value from half a last place on. -/
theorem two_pow_le_ofNat_iff_of_log2 (he : 54 ≤ e) (hlog : a.log2 + 1 = e) :
    2 ^ 53 ≤ roundDiv a (2 ^ (e - 53)) ↔ 2 ^ e ≤ a + 2 ^ (e - 54) := by
  have hlast : 2 ^ (e - 53) = 2 * 2 ^ (e - 54) := by
    rw [← pow_succ', show e - 54 + 1 = e - 53 by omega]
  have hpower : 2 ^ 53 * 2 ^ (e - 53) = 2 ^ e := by rw [← pow_add, Nat.add_sub_cancel' (by omega)]
  rw [le_roundDiv_iff_of_even (Nat.two_pow_pos _) rfl, hpower, hlast]
  omega

theorem two_pow_le_ofNat_iff (he : 54 ≤ e) : 2 ^ e ≤ ofNat a ↔ 2 ^ e ≤ a + 2 ^ (e - 54) := by
  have hhalf : 2 ^ e = 2 * 2 ^ (e - 1) := by rw [← pow_succ', Nat.sub_add_cancel (by omega)]
  have hsmall : 2 ^ (e - 54) < 2 ^ (e - 1) := Nat.pow_lt_pow_right (by decide) (by omega)
  by_cases hlow : a < 2 ^ (e - 1)
  · have hle := ofNat_le_two_pow hlow
    exact iff_of_false (by omega) (by omega)
  have ha : a ≠ 0 := by
    rintro rfl
    exact hlow (Nat.two_pow_pos _)
  have hlog : e - 1 ≤ a.log2 := (Nat.le_log2 ha).mpr (Nat.le_of_not_lt hlow)
  -- Below the power the rounding decides; from it on, the number keeps its first bit.
  rcases Nat.eq_or_lt_of_le hlog with hlog | hlog
  · have hdigits := two_pow_le_ofNat_iff_of_log2 he (show a.log2 + 1 = e by omega)
    have hpower : 2 ^ e = 2 ^ 53 * 2 ^ (e - 53) := by rw [← pow_add, Nat.add_sub_cancel' (by omega)]
    rw [← hdigits, ofNat_eq (by omega), show a.log2 - 52 = e - 53 by omega, hpower]
    exact Nat.mul_le_mul_right_iff (Nat.two_pow_pos _)
  · have hpower : 2 ^ e ≤ 2 ^ a.log2 := Nat.pow_le_pow_right (by decide) (by omega)
    have hself := Nat.log2_self_le ha
    have hround := two_pow_log2_le_ofNat ha
    have hpos := Nat.two_pow_pos (e - 54)
    exact iff_of_true (by omega) (by omega)

/-- A number that does not become the power of two stays a last place below it. -/
theorem ofNat_le_of_lt (he : 54 ≤ e) (h : a + 2 ^ (e - 54) < 2 ^ e) :
    ofNat a ≤ 2 ^ e - 2 ^ (e - 53) := by
  have hhalf : 2 ^ e = 2 * 2 ^ (e - 1) := by rw [← pow_succ', Nat.sub_add_cancel (by omega)]
  have hsmall : 2 ^ (e - 53) ≤ 2 ^ (e - 1) := Nat.pow_le_pow_right (by decide) (by omega)
  by_cases hlow : a < 2 ^ (e - 1)
  · have hle := ofNat_le_two_pow hlow
    omega
  have ha : a ≠ 0 := by
    rintro rfl
    exact hlow (Nat.two_pow_pos _)
  have hlow' : e - 1 ≤ a.log2 := (Nat.le_log2 ha).mpr (Nat.le_of_not_lt hlow)
  have hhigh : a.log2 < e := (Nat.log2_lt ha).mpr (Nat.lt_of_le_of_lt (Nat.le_add_right _ _) h)
  have hdigits := two_pow_le_ofNat_iff_of_log2 he (show a.log2 + 1 = e by omega)
  have hround : roundDiv a (2 ^ (e - 53)) ≤ 2 ^ 53 - 1 := by omega
  have hpower : 2 ^ e = 2 ^ 53 * 2 ^ (e - 53) := by rw [← pow_add, Nat.add_sub_cancel' (by omega)]
  rw [ofNat_eq (by omega), show a.log2 - 52 = e - 53 by omega]
  calc roundDiv a (2 ^ (e - 53)) * 2 ^ (e - 53) ≤ (2 ^ 53 - 1) * 2 ^ (e - 53) :=
        Nat.mul_le_mul_right _ hround
    _ = 2 ^ e - 2 ^ (e - 53) := by rw [Nat.sub_mul, hpower, Nat.one_mul]

/-! ## Quotients by powers of two -/

variable {j : Nat}

theorem atLeast_nearest_two_pow (he : 52 ≤ e) (hlow : 2 ^ (e + j) ≤ a)
    (hhigh : a < 2 ^ (e + j + 52)) : (nearest a (2 ^ j)).AtLeast (2 ^ e) := by
  have ha : a ≠ 0 := Nat.ne_of_gt (Nat.lt_of_lt_of_le (Nat.two_pow_pos _) hlow)
  have hlog : a.log2 < e + j + 52 := (Nat.log2_lt ha).mpr hhigh
  refine atLeast_nearest (Nat.two_pow_pos j) (Nat.pow_dvd_pow 2 ?_) ?_
  · rw [Nat.log2_two_pow]
    omega
  · rwa [← pow_add]

theorem atMost_nearest_two_pow (he : 53 ≤ e) (h : a ≤ 2 ^ (e + j) - 2 ^ (e - 53 + j)) :
    (nearest a (2 ^ j)).AtMost (2 ^ e - 2 ^ (e - 53)) := by
  have hlast : 0 < 2 ^ (e - 53 + j) := Nat.two_pow_pos _
  have hpower : 0 < 2 ^ (e + j) := Nat.two_pow_pos _
  by_cases ha : a = 0
  · subst ha
    exact Nat.zero_le _
  have hlog : a.log2 < e + j := (Nat.log2_lt ha).mpr (by omega)
  refine atMost_nearest (Nat.two_pow_pos j) ?_ ?_
  · rw [Nat.log2_two_pow]
    exact Nat.dvd_sub (Nat.pow_dvd_pow 2 (by omega)) (Nat.pow_dvd_pow 2 (by omega))
  · rwa [Nat.sub_mul, ← pow_add, ← pow_add]

end Binary64

end Beacon
