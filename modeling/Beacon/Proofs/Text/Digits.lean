import Beacon.Address
import Beacon.Text.Basic
import Mathlib.Algebra.Group.Nat.Defs

/-
  Digits read back. The digits of bytes and of numbers are read as what they write, and
  a number below a power of the base has no more digits than the power says.
-/

namespace Beacon

namespace Hex

theorem value?_digit : ∀ d < 16, value? (digit d) = some d := by decide

/-! ## Bytes -/

theorem decode_encode (bs : Bytes) : decode (encode bs) = some bs := by
  induction bs with
  | nil => rfl
  | cons b bs ih =>
    have hb : b.toNat < 256 := b.toNat_lt
    rw [encode, decode, value?_digit _ (by omega), value?_digit _ (by omega)]
    simp only [ih, Option.map_some, Option.some.injEq, List.cons.injEq, and_true]
    rw [Nat.div_add_mod, UInt8.ofNat_toNat]

theorem digit_ne_x : ∀ d < 16, digit d ≠ 'x' := by decide

theorem unmarked_encode (bs : Bytes) : unmarked (encode bs) = encode bs := by
  cases bs with
  | nil => rfl
  | cons b bs =>
    have hlow : digit (b.toNat % 16) ≠ 'x' := digit_ne_x _ (by omega)
    rw [encode, unmarked]
    rintro rest h
    simp only [List.cons.injEq] at h
    exact absurd h.2.1 hlow

theorem parse_marked (bs : Bytes) : parse (marked bs) = some bs := by
  rw [parse, marked, String.toList_ofList, unmarked, unmarked_encode, decode_encode]

@[simp] theorem parseOctets_marked {n : Nat} (w : Octets n) :
    parseOctets n (marked w.bytes) = some w := by
  rw [parseOctets, parse_marked, Option.bind_some, Octets.ofBytes?, dif_pos w.length_bytes]

end Hex

@[simp] theorem Address.parse_text (a : Address) : Address.parse a.text = .ok a := by
  rw [Address.parse, Address.text, Hex.parseOctets_marked]

/-! ## Numbers -/

namespace Numeral

variable {base : Nat}

theorem digitIn?_digit (hbase : base ≤ 16) {d : Nat} (hd : d < base) :
    digitIn? base (Hex.digit d) = some d := by
  rw [digitIn?, Hex.value?_digit d (by omega), Option.filter_some, if_pos (by simpa using hd)]

theorem valueFrom?_append (acc : Nat) (cs ds : List Char) :
    valueFrom? base acc (cs ++ ds) =
      (valueFrom? base acc cs).bind fun acc => valueFrom? base acc ds := by
  induction cs generalizing acc with
  | nil => rfl
  | cons c cs ih =>
    rw [List.cons_append, valueFrom?, valueFrom?]
    cases digitIn? base c with
    | none => rfl
    | some d => exact ih _

/-- Most significant digit first, the digits of a number have its value. -/
theorem valueFrom?_lowDigits (h2 : 2 ≤ base) (hbase : base ≤ 16) (n : Nat) :
    valueFrom? base 0 (lowDigits base n).reverse = some n := by
  fun_induction lowDigits base n with
  | case1 n h ih =>
    have hd : n % base < base := Nat.mod_lt n (by omega)
    rw [List.reverse_cons, valueFrom?_append, ih, Option.bind_some, valueFrom?,
      digitIn?_digit hbase hd, Option.bind_some, valueFrom?, Nat.div_add_mod']
  | case2 n h =>
    have hn : n = 0 := by omega
    rw [hn]
    rfl

theorem lowDigits_ne_nil (h2 : 2 ≤ base) {n : Nat} (hn : n ≠ 0) : lowDigits base n ≠ [] := by
  rw [lowDigits, dif_pos ⟨h2, hn⟩]
  exact List.cons_ne_nil _ _

theorem digits_ne_nil (h2 : 2 ≤ base) (n : Nat) : digits base n ≠ [] := by
  rw [digits]
  split
  · exact List.cons_ne_nil _ _
  · exact fun h => lowDigits_ne_nil h2 ‹_› (List.reverse_eq_nil_iff.mp h)

theorem decimal_ne_nil (n : Nat) : decimal n ≠ [] := digits_ne_nil (by omega) n

theorem value?_eq_valueFrom? {cs : List Char} (h : cs ≠ []) :
    value? base cs = valueFrom? base 0 cs := by
  cases cs with
  | nil => exact absurd rfl h
  | cons c cs => rfl

theorem value?_digits (h2 : 2 ≤ base) (hbase : base ≤ 16) (n : Nat) :
    value? base (digits base n) = some n := by
  rw [value?_eq_valueFrom? (digits_ne_nil h2 n), digits]
  split
  · rename_i hn
    have h0 : digitIn? base '0' = some 0 := digitIn?_digit hbase (d := 0) (by omega)
    simp [valueFrom?, h0, hn]
  · exact valueFrom?_lowDigits h2 hbase n

@[simp] theorem value?_decimal (n : Nat) : value? 10 (decimal n) = some n :=
  value?_digits (by omega) (by omega) n

theorem decimalText_injective {m n : Nat} (h : decimalText m = decimalText n) : m = n := by
  have hsame : decimal m = decimal n := String.ofList_injective h
  have hvalue := congrArg (value? 10) hsame
  rwa [value?_decimal, value?_decimal, Option.some.injEq] at hvalue

/-! ## The digits themselves -/

theorem mem_lowDigits {n : Nat} {c : Char} (h : c ∈ lowDigits base n) :
    ∃ d < base, c = Hex.digit d := by
  fun_induction lowDigits base n with
  | case1 n hn ih =>
    rcases List.mem_cons.mp h with rfl | h
    · exact ⟨n % base, Nat.mod_lt n (by omega), rfl⟩
    · exact ih h
  | case2 n hn => cases h

theorem mem_digits {n : Nat} {c : Char} (h0 : 0 < base) (h : c ∈ digits base n) :
    ∃ d < base, c = Hex.digit d := by
  rw [digits] at h
  split at h
  · exact ⟨0, h0, List.mem_singleton.mp h⟩
  · exact mem_lowDigits (List.mem_reverse.mp h)

theorem length_lowDigits_le {n k : Nat} (h : n < base ^ k) :
    (lowDigits base n).length ≤ k := by
  induction k generalizing n with
  | zero =>
    have hn : n = 0 := by simpa using h
    simp [hn, lowDigits]
  | succ k ih =>
    rw [lowDigits]
    split
    · have hdiv : n / base < base ^ k := Nat.div_lt_of_lt_mul (by rwa [Nat.pow_succ'] at h)
      simpa using ih hdiv
    · simp

theorem length_decimal_le {n k : Nat} (h : n < 10 ^ k) (hk : k ≠ 0) : (decimal n).length ≤ k := by
  rw [decimal, digits]
  split
  · exact Nat.one_le_iff_ne_zero.mpr hk
  · rw [List.length_reverse]
    exact length_lowDigits_le h

/-- The last of the low digits is not zero: a number does not start with a zero, unless
it is zero. -/
theorem head_digits_ne_zero (h2 : 2 ≤ base) (hbase : base ≤ 16) {n : Nat} (hn : n ≠ 0) :
    (digits base n).head? ≠ some '0' := by
  rw [digits, if_neg hn, List.head?_reverse]
  fun_induction lowDigits base n with
  | case1 n h ih =>
    by_cases hq : n / base = 0
    · have hd : n % base ≠ 0 := by
        rw [Nat.mod_eq_of_lt (Nat.lt_of_div_eq_zero (by omega) hq)]
        exact hn
      have hzero : ∀ d < 16, d ≠ 0 → Hex.digit d ≠ '0' := by decide
      rw [hq, lowDigits, dif_neg (by omega)]
      have hlt : n % base < base := Nat.mod_lt n (by omega)
      simpa using hzero _ (by omega) hd
    · rw [List.getLast?_cons_of_ne_nil (lowDigits_ne_nil h2 hq)]
      exact ih hq
  | case2 n h => exact absurd hn (by omega)

/-! ## Numbers of any size -/

theorem digit_of_mem {n : Nat} {c : Char} (h : c ∈ digits 16 n) : c ≠ 'x' ∧ c ≠ '+' ∧ c ≠ '_' := by
  obtain ⟨d, hd, rfl⟩ := mem_digits (by omega) h
  have hall : ∀ d < 16, Hex.digit d ≠ 'x' ∧ Hex.digit d ≠ '+' ∧ Hex.digit d ≠ '_' := by decide
  exact hall d hd

theorem unmarked_digits (n : Nat) : Hex.unmarked (digits 16 n) = digits 16 n := by
  rw [Hex.unmarked]
  intro rest h
  exact (digit_of_mem (h ▸ List.mem_cons_of_mem _ List.mem_cons_self)).1 rfl

theorem parseLarge_digits (n : Nat) : parseLarge 16 (digits 16 n) = some n := by
  have hne : digits 16 n ≠ [] := digits_ne_nil (by omega) n
  have hvalue : value? 16 (digits 16 n) = some n := value?_digits (by omega) (by omega) n
  rw [value?_eq_valueFrom? hne] at hvalue
  have hunsigned : unsigned (digits 16 n) = digits 16 n := by
    rw [unsigned]
    intro cs h
    exact (digit_of_mem (h ▸ List.mem_cons_self)).2.1 rfl
  have hkept : (digits 16 n).filter (· ≠ '_') = digits 16 n :=
    List.filter_eq_self.mpr fun c hc => by simpa using (digit_of_mem hc).2.2
  have hfirst (cs : List Char) : digits 16 n ≠ '_' :: cs := fun h =>
    (digit_of_mem (h ▸ List.mem_cons_self)).2.2 rfl
  rw [parseLarge, hunsigned]
  split
  · exact absurd ‹_› hne
  · exact absurd ‹_› (hfirst _)
  · rw [hkept, hvalue]

end Numeral

end Beacon
