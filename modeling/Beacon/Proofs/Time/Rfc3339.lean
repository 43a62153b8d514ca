import Beacon.Record.Kept
import Beacon.Proofs.Json.Keeping

/-
  Instants read back. The text of every instant, years outside of four digits and leap
  seconds included, is read as the instant (`parse_text`).
-/

namespace Beacon.Rfc3339

open Json (Undigited isDigit)

/-! ## Padded numbers -/

theorem valueFrom?_zeros (count : Nat) (ds : List Char) :
    Numeral.valueFrom? 10 0 (List.replicate count '0' ++ ds) = Numeral.valueFrom? 10 0 ds := by
  induction count with
  | zero => rfl
  | succ count ih => exact ih

theorem padded_ne_nil (width n : Nat) : padded width n ≠ [] :=
  List.append_ne_nil_of_right_ne_nil _ (Numeral.decimal_ne_nil n)

@[simp] theorem value?_padded (width n : Nat) : Numeral.value? 10 (padded width n) = some n := by
  rw [Numeral.value?_eq_valueFrom? (padded_ne_nil width n), padded, valueFrom?_zeros,
    ← Numeral.value?_eq_valueFrom? (Numeral.decimal_ne_nil n), Numeral.value?_decimal]

theorem isDigit_of_mem_padded {width n : Nat} {c : Char} (h : c ∈ padded width n) :
    isDigit c = true := by
  rcases List.mem_append.mp h with h | h
  · rw [List.eq_of_mem_replicate h]
    rfl
  · exact Json.isDigit_of_mem_decimal h

theorem length_padded {width n : Nat} (h : n < 10 ^ width) (hwidth : width ≠ 0) :
    (padded width n).length = width := by
  have hlength := Numeral.length_decimal_le h hwidth
  rw [padded, List.length_append, List.length_replicate]
  omega

theorem takeWhile_take_padded {most width n : Nat} (h : (padded width n).length ≤ most)
    {s : List Char} (hs : Undigited s) :
    ((padded width n ++ s).take most).takeWhile isDigit = padded width n := by
  rw [List.take_append, List.take_of_length_le h]
  refine Json.takeWhile_isDigit (fun c hc => isDigit_of_mem_padded hc) ?_
  intro c hc
  cases s with
  | nil => simp at hc
  | cons d s =>
    cases hmost : most - (padded width n).length with
    | zero => simp [hmost] at hc
    | succ k =>
      rw [hmost] at hc
      exact hs c hc

theorem number?_padded {most width n : Nat} (h : (padded width n).length ≤ most)
    {s : List Char} (hs : Undigited s) : number? most (padded width n ++ s) = some (n, s) := by
  simp [number?, takeWhile_take_padded h hs]

/-! ## Parts -/

theorem not_isBlank_of_isDigit {c : Char} (h : isDigit c = true) : Text.isBlank c = false := by
  simp only [isDigit, Bool.and_eq_true, decide_eq_true_eq] at h
  have hlow : 48 ≤ c.toNat := h.1
  have hhigh : c.toNat ≤ 57 := h.2
  simp [Text.isBlank, Text.blankRanges]
  omega

theorem trimStart_cons {c : Char} (hc : Text.isBlank c = false) (s : List Char) :
    Text.trimStart (c :: s) = c :: s :=
  List.dropWhile_cons_of_neg (by simp [hc])

theorem trimStart_padded (width n : Nat) (s : List Char) :
    Text.trimStart (padded width n ++ s) = padded width n ++ s := by
  cases hds : padded width n with
  | nil => exact absurd hds (padded_ne_nil width n)
  | cons c ds =>
    have hc : isDigit c = true := isDigit_of_mem_padded (hds ▸ List.mem_cons_self)
    rw [List.cons_append, trimStart_cons (not_isBlank_of_isDigit hc)]

theorem undigited_cons {c : Char} {s : List Char} (h : isDigit c = false) :
    Undigited (c :: s) := by
  rintro d hd
  cases hd
  exact h

theorem part?_padded {n : Nat} (h : n < 100) {s : List Char} (hs : Undigited s) :
    part? (padded 2 n ++ s) = some (n, s) := by
  rw [part?, trimStart_padded, number?_padded (Nat.le_of_eq (length_padded h (by decide))) hs]

theorem mark?_cons {c : Char} (hc : Text.isBlank c = false) (s : List Char) :
    mark? c (c :: s) = some s := by
  rw [mark?, trimStart_cons hc]
  simp

theorem number?_year {most n : Nat} (h : (padded 4 n).length ≤ most) (s : List Char) :
    number? most (padded 4 n ++ '-' :: s) = some (n, '-' :: s) :=
  number?_padded h (undigited_cons (by decide))

theorem year?_year (y : Int) (s : List Char) : year? (year y ++ '-' :: s) = some (y, '-' :: s) := by
  have hmany (n : Nat) : (padded 4 n).length ≤ (padded 4 n ++ '-' :: s).length := by simp
  unfold year
  split_ifs with hfour hneg
  · have hlength : (padded 4 y.toNat).length = 4 := length_padded (by omega) (by decide)
    have hnumber := number?_year (Nat.le_of_eq hlength) s
    cases hds : padded 4 y.toNat with
    | nil => exact absurd hds (padded_ne_nil 4 _)
    | cons c ds =>
      have hc : isDigit c = true := isDigit_of_mem_padded (hds ▸ List.mem_cons_self)
      rw [hds, List.cons_append] at hnumber
      rw [List.cons_append, year?, trimStart_cons (not_isBlank_of_isDigit hc)]
      split
      · next heq =>
        rw [(List.cons.inj heq).1] at hc
        exact absurd hc (by decide)
      · next heq =>
        rw [(List.cons.inj heq).1] at hc
        exact absurd hc (by decide)
      · rw [hnumber, Option.map_some]
        simp only [Int.ofNat_eq_natCast, Int.toNat_of_nonneg hfour.1]
  · rw [List.cons_append, year?, trimStart_cons (by decide)]
    simp only [number?_year (hmany y.natAbs) s, Option.map_some, Option.some.injEq, Prod.mk.injEq,
      and_true, Int.ofNat_eq_natCast]
    omega
  · rw [List.cons_append, year?, trimStart_cons (by decide)]
    simp only [number?_year (hmany y.natAbs) s, Option.map_some, Option.some.injEq, Prod.mk.injEq,
      and_true, Int.ofNat_eq_natCast]
    omega

theorem undigited_fraction (nanos : Nat) : Undigited (fraction nanos ++ ['Z']) := by
  unfold fraction
  split_ifs <;> exact undigited_cons (by decide)

theorem fraction?_fraction {nanos : Nat} (h : nanos < 1000000000) :
    fraction? (fraction nanos ++ ['Z']) = some (nanos, ['Z']) := by
  have hz : Undigited ['Z'] := undigited_cons (by decide)
  have hpoint {width n : Nat} (hn : n < 10 ^ width) (hwidth : width ≠ 0) (hnine : width ≤ 9) :
      fraction? ('.' :: padded width n ++ ['Z']) = some (n * 10 ^ (9 - width), ['Z']) := by
    have hlength := length_padded hn hwidth
    rw [List.cons_append, fraction?, takeWhile_take_padded (by omega) hz, value?_padded]
    simp [hlength, isDigit]
  unfold fraction
  split_ifs with hzero hmilli hmicro
  · rw [hzero]
    rfl
  · rw [hpoint (by omega) (by decide) (by decide)]
    simp only [Option.some.injEq, Prod.mk.injEq, and_true]
    omega
  · rw [hpoint (by omega) (by decide) (by decide)]
    simp only [Option.some.injEq, Prod.mk.injEq, and_true]
    omega
  · rw [hpoint (by omega) (by decide) (by decide)]
    simp

/-! ## Instants -/

theorem ofLocal_zero (i : Instant) : Instant.ofLocal i.date i.time 0 = some i := by
  obtain ⟨date, time, hdate, htime⟩ := i
  obtain ⟨hhour, hminute, -⟩ := id htime
  have hday : ((60 * time.hour + time.minute : Int) - 0) / 1440 = 0 := by omega
  have htoday : (((60 * time.hour + time.minute : Int) - 0) % 1440).toNat =
      60 * time.hour + time.minute := by omega
  have hsame : { time with
      hour := (60 * time.hour + time.minute) / 60
      minute := (60 * time.hour + time.minute) % 60 } = time := by
    have hh : (60 * time.hour + time.minute) / 60 = time.hour := by omega
    have hm : (60 * time.hour + time.minute) % 60 = time.minute := by omega
    rw [hh, hm]
  simp only [Instant.ofLocal, if_pos (And.intro hdate htime), hday, htoday, hsame,
    Calendar.Date.shift, Int.lt_irrefl, if_false]
  rw [Instant.check, dif_pos ⟨hdate, htime⟩]

/-- A second 60 stands for a leap second, and for nothing else. -/
theorem time_of_seconds {t : TimeOfDay} (h : t.Valid) :
    { hour := t.hour, minute := t.minute
      second := if t.second + t.nanosecond / 1000000000 = 60 then 59
        else t.second + t.nanosecond / 1000000000
      nanosecond := if t.second + t.nanosecond / 1000000000 = 60 then
        t.nanosecond % 1000000000 + 1000000000 else t.nanosecond % 1000000000 } = t := by
  obtain ⟨-, -, hsecond, hnanos, hleap⟩ := h
  obtain ⟨hour, minute, second, nanosecond⟩ := t
  simp only [TimeOfDay.mk.injEq, true_and]
  simp only at hsecond hnanos hleap
  by_cases hbillion : 1000000000 ≤ nanosecond
  · have h59 := hleap hbillion
    split_ifs with h60
    · omega
    · omega
  · split_ifs with h60
    · omega
    · omega

theorem parse_text (i : Instant) : parse (text i) = some i := by
  have hmonths : 1 ≤ i.date.month ∧ i.date.month ≤ 12 := ⟨i.date_valid.2.2.1, i.date_valid.2.2.2.1⟩
  have hdays : i.date.day ≤ 31 := by
    refine Nat.le_trans i.date_valid.2.2.2.2.2 ?_
    unfold Calendar.daysIn
    split_ifs <;> decide
  obtain ⟨hhour, hminute, hsecond, hnanos, hleap⟩ := i.time_valid
  have hpart {n : Nat} (hn : n < 100) (c : Char) (hc : isDigit c = false) (s : List Char) :
      part? (padded 2 n ++ c :: s) = some (n, c :: s) := part?_padded hn (undigited_cons hc)
  have hmonth := hpart (n := i.date.month) (by omega) '-' (by decide)
  have hday := hpart (n := i.date.day) (by omega) 'T' (by decide)
  have hhours := hpart (n := i.time.hour) (by omega) ':' (by decide)
  have hminutes := hpart (n := i.time.minute) (by omega) ':' (by decide)
  have hseconds := part?_padded (n := i.time.second + i.time.nanosecond / 1000000000) (by omega)
    (undigited_fraction (i.time.nanosecond % 1000000000))
  have hfraction := fraction?_fraction (Nat.mod_lt i.time.nanosecond (y := 1000000000) (by omega))
  have hdash := mark?_cons (c := '-') (by decide)
  have hcolon := mark?_cons (c := ':') (by decide)
  have hzone : zone? (Text.trimStart ['Z']) = some (0, []) := rfl
  have hend : Text.trimStart [] = [] := rfl
  have hbetween (s : List Char) : between? ('T' :: s) = some s := rfl
  simp only [parse, text, year?_year, hdash, hcolon, hmonth, hday, hhours, hminutes, hseconds,
    hfraction, hzone, hend, hbetween, Option.bind_eq_bind, Option.bind_some]
  rw [if_neg (fun h => h rfl), time_of_seconds i.time_valid]
  exact ofLocal_zero i

end Beacon.Rfc3339

namespace Beacon.Format

theorem keeps_instant (i : Instant) : instant.Keeps i where
  written := .ofText _
  read_write := by
    simp only [instant, read_text, String.toList_ofList, Rfc3339.parse_text]
    rfl

end Beacon.Format
