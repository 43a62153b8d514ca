import Beacon.Address
import Mathlib.Algebra.Group.Nat.Defs

/-
  Numbers, words and texts as bytes. A number below the power that its length allows is
  the number its bytes write, so that numbers of 64 bits, addresses and texts each have
  bytes of their own.
-/

namespace Beacon

/-! ## Numbers -/

theorem ofLittleEndian_littleEndian {n x : Nat} (h : x < 256 ^ n) :
    ofLittleEndian (littleEndian n x) = x := by
  induction n generalizing x with
  | zero =>
    have hx : x = 0 := by simpa using h
    rw [hx]
    rfl
  | succ n ih =>
    have hdiv : x / 256 < 256 ^ n := Nat.div_lt_of_lt_mul (by rwa [Nat.pow_succ'] at h)
    rw [littleEndian, ofLittleEndian, ih hdiv, UInt8.toNat_ofNat']
    exact Nat.mod_add_div x 256

theorem ofBigEndian_bigEndian {n x : Nat} (h : x < 256 ^ n) :
    ofBigEndian (bigEndian n x) = x := by
  rw [ofBigEndian, bigEndian, List.reverse_reverse, ofLittleEndian_littleEndian h]

theorem littleEndian_ofLittleEndian (bs : Bytes) :
    littleEndian bs.length (ofLittleEndian bs) = bs := by
  induction bs with
  | nil => rfl
  | cons b bs ih =>
    have hlow : (b.toNat + 256 * ofLittleEndian bs) % 256 = b.toNat := by
      have hb : b.toNat < 256 := b.toNat_lt
      omega
    have hrest : (b.toNat + 256 * ofLittleEndian bs) / 256 = ofLittleEndian bs := by
      have hb : b.toNat < 256 := b.toNat_lt
      omega
    have hbyte : UInt8.ofNat (b.toNat + 256 * ofLittleEndian bs) = b :=
      UInt8.toNat_inj.mp (by rw [UInt8.toNat_ofNat', hlow])
    rw [List.length_cons, ofLittleEndian, littleEndian, hrest, ih, hbyte]

theorem ofLittleEndian_lt (bs : Bytes) : ofLittleEndian bs < 256 ^ bs.length := by
  induction bs with
  | nil => exact Nat.one_pos
  | cons b bs ih =>
    have hb : b.toNat < 256 := b.toNat_lt
    rw [ofLittleEndian, List.length_cons, Nat.pow_succ']
    omega

theorem ofLittleEndian_zeros (k : Nat) : ofLittleEndian (List.replicate k 0) = 0 := by
  induction k with
  | zero => rfl
  | succ k ih =>
    rw [List.replicate_succ, ofLittleEndian, ih]
    rfl

/-- Zeros in front of the most significant byte write nothing. -/
theorem ofLittleEndian_append_zeros (bs : Bytes) (k : Nat) :
    ofLittleEndian (bs ++ List.replicate k 0) = ofLittleEndian bs := by
  induction bs with
  | nil => exact ofLittleEndian_zeros k
  | cons b bs ih => rw [List.cons_append, ofLittleEndian, ofLittleEndian, ih]

theorem ofBigEndian_padToWords (bs : Bytes) : ofBigEndian (padToWords bs) = ofBigEndian bs := by
  rw [padToWords, ofBigEndian, List.reverse_append, List.reverse_replicate,
    ofLittleEndian_append_zeros, ofBigEndian]

theorem lt_byteLength (x : Nat) : x < 256 ^ byteLength x := by
  have hbits : x.log2 + 1 ≤ 8 * byteLength x := by
    rw [byteLength]
    omega
  calc x < 2 ^ (x.log2 + 1) := Nat.lt_log2_self
    _ ≤ 2 ^ (8 * byteLength x) := Nat.pow_le_pow_right (by decide) hbits
    _ = 256 ^ byteLength x := Nat.pow_mul 2 8 _

/-- A number of any size is read back from its bytes, filled up to whole words or not. -/
theorem ofBigEndian_minimalBytes (x : Nat) : ofBigEndian (minimalBytes x) = x :=
  ofBigEndian_bigEndian (lt_byteLength x)

/-- As many bytes write no number from the power of their length on. -/
theorem Octets.toNat_lt {n : Nat} (a : Octets n) : a.toNat < 256 ^ n := by
  have h := ofLittleEndian_lt a.bytes.reverse
  rwa [List.length_reverse, a.length_bytes] at h

theorem Octets.toNat_injective {n : Nat} {a b : Octets n} (h : a.toNat = b.toNat) : a = b := by
  have hlength : a.bytes.reverse.length = b.bytes.reverse.length := by
    rw [List.length_reverse, List.length_reverse, a.length_bytes, b.length_bytes]
  have hvalue : ofLittleEndian a.bytes.reverse = ofLittleEndian b.bytes.reverse := h
  have hbytes : a.bytes.reverse = b.bytes.reverse := by
    rw [← littleEndian_ofLittleEndian a.bytes.reverse,
      ← littleEndian_ofLittleEndian b.bytes.reverse, hlength, hvalue]
  exact Octets.ext (List.reverse_inj.mp hbytes)

theorem Address.rank_injective {a b : Address} (h : a.rank = b.rank) : a = b := by
  obtain ⟨a⟩ := a
  obtain ⟨b⟩ := b
  have hvalue : a.toNat = b.toNat := h
  rw [Octets.toNat_injective hvalue]

theorem Word.ofUInt64_injective {x y : UInt64} (h : Word.ofUInt64 x = Word.ofUInt64 y) :
    x = y := by
  have fits (z : UInt64) : z.toNat < 256 ^ 32 := Nat.lt_trans z.toNat_lt (by decide)
  have hvalue := congrArg Octets.toNat h
  rw [Word.ofUInt64, Word.ofUInt64, Octets.toNat, Octets.toNat, Octets.ofNat, Octets.ofNat,
    ofBigEndian_bigEndian (fits x), ofBigEndian_bigEndian (fits y)] at hvalue
  exact UInt64.toNat_inj.mp hvalue

theorem Address.word_injective {a b : Address} (h : a.word = b.word) : a = b := by
  obtain ⟨a⟩ := a
  obtain ⟨b⟩ := b
  have hbytes : (Octets.zero 12).bytes ++ a.bytes = (Octets.zero 12).bytes ++ b.bytes :=
    congrArg Octets.bytes h
  rw [Octets.ext (List.append_cancel_left hbytes)]

/-! ## Texts -/

/-- The bytes of an array from a place on, behind what is already collected. -/
theorem toList_loop (bs : ByteArray) (i : Nat) (front : Bytes) :
    ByteArray.toList.loop bs i front = front.reverse ++ bs.data.toList.drop i := by
  fun_induction ByteArray.toList.loop bs i front with
  | case1 i front hi ih =>
    have hlen : i < bs.data.toList.length := by simpa using hi
    have hget : bs.get! i = bs.data.toList[i] := by
      obtain ⟨bs⟩ := bs
      exact (getElem!_pos bs i hi).trans (Array.getElem_toList ..).symm
    rw [ih, List.drop_eq_getElem_cons hlen, hget, List.reverse_cons, List.append_assoc,
      List.singleton_append]
  | case2 i front hi =>
    have hend : bs.data.toList.length ≤ i := by simpa using Nat.le_of_not_lt hi
    rw [List.drop_eq_nil_of_le hend, List.append_nil]

theorem utf8_eq (s : String) : utf8 s = s.toByteArray.data.toList := by
  rw [utf8, String.toUTF8, ByteArray.toList, toList_loop]
  rfl

theorem utf8_injective {s t : String} (h : utf8 s = utf8 t) : s = t := by
  rw [utf8_eq, utf8_eq, Array.toList_inj] at h
  exact String.toByteArray_inj.mp (ByteArray.ext h)

/-- A text is encoded character by character. -/
theorem utf8_ofList (cs : List Char) :
    utf8 (String.ofList cs) = cs.flatMap String.utf8EncodeChar := by
  rw [utf8_eq, String.toByteArray_ofList, List.utf8Encode, List.toList_data_toByteArray]

theorem length_utf8_ofList_le (cs : List Char) :
    (utf8 (String.ofList cs)).length ≤ 4 * cs.length := by
  rw [utf8_ofList]
  induction cs with
  | nil => exact Nat.le_refl 0
  | cons c cs ih =>
    have hc : (String.utf8EncodeChar c).length ≤ 4 := by
      rw [String.length_utf8EncodeChar]
      exact c.utf8Size_le_four
    rw [List.flatMap_cons, List.length_append, List.length_cons]
    omega

end Beacon
