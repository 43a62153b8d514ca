import Beacon.Proofs.Number.Binary64
import Beacon.Proofs.Time.Rfc3339
import Mathlib.Data.List.TakeWhile

/-
  An operator's commitment read back. All members beside the seal and its moment are
  kept until the end of the object, so they must be strict: texts always are, and numbers
  of 64 bits are far below the range of binary64.
-/

namespace Beacon

/-! ## Numbers in the range of binary64 -/

namespace Numeral

theorem le_valueFrom? {acc n : Nat} {cs : List Char} (h : valueFrom? 10 acc cs = some n) :
    acc ≤ n := by
  induction cs generalizing acc with
  | nil => exact Nat.le_of_eq (Option.some.inj h)
  | cons c cs ih =>
    rw [valueFrom?, Option.bind_eq_some_iff] at h
    obtain ⟨d, -, h⟩ := h
    have hle := ih h
    omega

end Numeral

namespace Json

theorem takeDigits_eq {acc n : Nat} {cs : List Char}
    (h : Numeral.valueFrom? 10 acc cs = some n) (hn : n < UInt64.size) :
    takeDigits acc cs = (n, []) := by
  induction cs generalizing acc with
  | nil => exact congrArg (·, []) (Option.some.inj h)
  | cons c cs ih =>
    rw [Numeral.valueFrom?, Option.bind_eq_some_iff] at h
    obtain ⟨d, hd, h⟩ := h
    rw [Nat.mul_comm] at h
    have hnext : 10 * acc + d < UInt64.size := Nat.lt_of_le_of_lt (Numeral.le_valueFrom? h) hn
    simp only [takeDigits, hd, Option.getD_some, if_pos hnext]
    exact ih h

theorem scientific_decimal {n : Nat} (h : n < UInt64.size) :
    scientific (Numeral.decimal n) = ⟨n, 0⟩ := by
  have hdigits : ∀ c ∈ Numeral.decimal n, c ≠ '-' ∧ isExponentMark c = false ∧ c ≠ '.' := by
    intro c hc
    obtain ⟨d, hd, rfl⟩ := Numeral.mem_digits (by omega) hc
    have hall : ∀ d < 10, Hex.digit d ≠ '-' ∧ isExponentMark (Hex.digit d) = false ∧
        Hex.digit d ≠ '.' := by decide
    exact hall d hd
  have hunsigned : (Numeral.decimal n).dropWhile (· = '-') = Numeral.decimal n := by
    cases hds : Numeral.decimal n with
    | nil => rfl
    | cons c cs =>
      have hc := (hdigits c (hds ▸ List.mem_cons_self)).1
      exact List.dropWhile_cons_of_neg (by simpa using hc)
  have hmantissa : (Numeral.decimal n).takeWhile (!isExponentMark ·) = Numeral.decimal n :=
    List.takeWhile_eq_self_iff.mpr fun c hc => by simp [(hdigits c hc).2.1]
  have hwhole : (Numeral.decimal n).takeWhile (· ≠ '.') = Numeral.decimal n :=
    List.takeWhile_eq_self_iff.mpr fun c hc => by simp [(hdigits c hc).2.2]
  have hvalue : Numeral.valueFrom? 10 0 (Numeral.decimal n) = some n := by
    rw [← Numeral.value?_eq_valueFrom? (Numeral.decimal_ne_nil n), Numeral.value?_decimal]
  have htaken := takeDigits_eq hvalue h
  simp only [scientific, hunsigned, hmantissa, hwhole, htaken]
  simp [takeDigits, exponentValue, digitsValue, Numeral.unsigned, Numeral.value?]

theorem two_pow_lt_overflowBound : 2 ^ 64 < overflowBound := by decide +kernel

theorem isStrict_ofNat {n : Nat} (h : n < UInt64.size) : isStrict (.ofNat n) = true := by
  have hone : Binary64.ofNat 1 = 1 := by decide
  have hrange : Binary64.ofNat n < overflowBound :=
    Nat.lt_of_le_of_lt (Binary64.ofNat_le_two_pow h) two_pow_lt_overflowBound
  have hin : Scientific.inRange ⟨n, 0⟩ = true := by
    simp only [Scientific.inRange]
    split_ifs with hzero hlarge
    · rfl
    · exact absurd hlarge (by decide)
    · simpa [hone] using hrange
  rw [isStrict, Json.ofNat, strictWithin, scientific_decimal h, hin]

theorem isStrict_ofText (s : String) : isStrict (.ofText s) = true := by
  simp [isStrict, ofText, strictWithin, unescape_escape]

end Json

/-! ## The record -/

namespace SealedCommitment

variable {slots : Slots [Word, Instant]} {others ms rest : List (List Char × Json)}

theorem split_others (h : ∀ m ∈ ms, (∃ k, m.1 = Json.escape k.toList ∧ k ∉ ownFields.keys) ∧
      Json.isStrict m.2 = true) :
    split slots others (ms ++ rest) = split slots (ms.reverse ++ others) rest := by
  induction ms generalizing others with
  | nil => rfl
  | cons m ms ih =>
    obtain ⟨⟨k, hm, hk⟩, hstrict⟩ := h m List.mem_cons_self
    obtain ⟨key, v⟩ := m
    simp only at hm hstrict
    subst hm
    have hown : ¬(k = "sealed" ∨ k = "created_at") := by
      have hnames : k ∉ ["sealed", "created_at"] := hk
      simpa using hnames
    rw [List.cons_append, split, Json.textOf?_escape]
    simp only [if_neg hown, hstrict, if_true]
    rw [ih fun m hm => h m (List.mem_cons_of_mem _ hm), List.reverse_cons, List.append_assoc]
    rfl

theorem split_own (h : ∀ m ∈ ms, ∃ k ∈ ownFields.keys, m.1 = Json.escape k.toList) :
    split slots others ms = (ownFields.putAll slots ms).map (·, others) := by
  induction ms generalizing slots with
  | nil => rfl
  | cons m ms ih =>
    obtain ⟨k, hk, hm⟩ := h m List.mem_cons_self
    obtain ⟨key, v⟩ := m
    simp only at hm
    subst hm
    have hown : k = "sealed" ∨ k = "created_at" := by
      have hnames : k ∈ ["sealed", "created_at"] := hk
      simpa using hnames
    rw [split, Fields.putAll, Json.textOf?_escape]
    simp only [if_pos hown]
    cases ownFields.put slots k v with
    | error e => rfl
    | ok slots => exact ih fun m hm => h m (List.mem_cons_of_mem _ hm)

theorem keep_commitment (c : Commitment) : Commitment.fields.Keep c.values :=
  ⟨Format.keeps_uint64 c.round, Format.keeps_address c.operator, Format.keeps_word c.secret,
    Format.keeps_word c.cos, Format.keeps_word c.cvs, trivial⟩

theorem keep_own (w : Word) (i : Instant) : ownFields.Keep (w, i, ()) :=
  ⟨Format.keeps_word w, Format.keeps_instant i, trivial⟩

/-- The members of a commitment are strict, and none is a field of the seal. -/
theorem others_members (c : Commitment) : ∀ m ∈ Commitment.fields.members c.values,
    (∃ k, m.1 = Json.escape k.toList ∧ k ∉ ownFields.keys) ∧ Json.isStrict m.2 = true := by
  have hnames : ∀ k ∈ Commitment.fields.keys, k ∉ ownFields.keys := by decide
  have hstrict : ∀ m ∈ Commitment.fields.members c.values, Json.isStrict m.2 = true := by
    refine List.forall_mem_cons.mpr ⟨Json.isStrict_ofNat c.round.toNat_lt, ?_⟩
    refine List.forall_mem_cons.mpr ⟨Json.isStrict_ofText _, ?_⟩
    refine List.forall_mem_cons.mpr ⟨Json.isStrict_ofText _, ?_⟩
    refine List.forall_mem_cons.mpr ⟨Json.isStrict_ofText _, ?_⟩
    exact List.forall_mem_singleton.mpr (Json.isStrict_ofText _)
  intro m hm
  obtain ⟨⟨k, hk, hkey⟩, -⟩ := Fields.mem_members (keep_commitment c) m hm
  exact ⟨⟨k, hkey, hnames k hk⟩, hstrict m hm⟩

end SealedCommitment

theorem Format.keeps_sealedCommitment (c : SealedCommitment) : sealedCommitment.Keeps c where
  written := by
    have hmembers : ∀ m ∈ Commitment.fields.members c.commitment.values ++
        SealedCommitment.ownFields.members (c.sealed, c.createdAt, ()),
        (∃ key, m.1 = Json.escape key) ∧ m.2.Written := by
      intro m hm
      rcases List.mem_append.mp hm with hm | hm
      · obtain ⟨⟨k, -, hk⟩, hwritten⟩ :=
          Fields.mem_members (SealedCommitment.keep_commitment c.commitment) m hm
        exact ⟨⟨k.toList, hk⟩, hwritten⟩
      · obtain ⟨⟨k, -, hk⟩, hwritten⟩ :=
          Fields.mem_members (SealedCommitment.keep_own c.sealed c.createdAt) m hm
        exact ⟨⟨k.toList, hk⟩, hwritten⟩
    exact .object (fun m hm => (hmembers m hm).1) fun m hm => (hmembers m hm).2
  read_write := by
    have hkeep := SealedCommitment.keep_commitment c.commitment
    have hown := SealedCommitment.keep_own c.sealed c.createdAt
    have hothers : SealedCommitment.split SealedCommitment.ownFields.empty []
        (Commitment.fields.members c.commitment.values ++
          SealedCommitment.ownFields.members (c.sealed, c.createdAt, ())) = _ :=
      SealedCommitment.split_others (SealedCommitment.others_members c.commitment)
    rw [SealedCommitment.split_own fun m hm => (Fields.mem_members hown m hm).1,
      Fields.putAll_members (by decide) hown] at hothers
    change SealedCommitment.ofMembers _ = _
    rw [SealedCommitment.ofMembers, hothers]
    simp only [Except.map, bind, Except.bind, Fields.fill_full, List.append_nil,
      List.reverse_reverse, Fields.putAll_members (by decide) hkeep]
    rfl

end Beacon
