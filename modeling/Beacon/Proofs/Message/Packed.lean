import Beacon.Proofs.Json.Keeping
import Beacon.Proofs.Octets

/-
  Both encodings of messages lose nothing. What is packed is taken back from the front of
  its bytes, whatever stands behind them (`Returns`): a number from its eight bytes, a text
  and a list by the length in front of them, and values in a row one after the other. So
  the bytes of a message are decoded as the message, as its JSON is, and the check of its
  sender then says the same of both.
-/

namespace Beacon

namespace Packed

variable {α β : Type} {p : Packed α} {q : Packed β}

/-- A value is taken back from the front of its bytes, and what is behind them is left. -/
def Returns (p : Packed α) (a : α) : Prop := ∀ rest, p.take (p.put a ++ rest) = some (a, rest)

/-! ## Numbers and texts -/

@[simp] theorem length_put_uint64 (x : UInt64) : (uint64.put x).length = 8 :=
  length_littleEndian 8 x.toNat

theorem returns_uint64 (x : UInt64) : uint64.Returns x := by
  intro rest
  have htake : (uint64.put x ++ rest).take 8 = uint64.put x := List.take_left' (length_put_uint64 x)
  have hdrop : (uint64.put x ++ rest).drop 8 = rest := List.drop_left' (length_put_uint64 x)
  have hvalue : ofLittleEndian (uint64.put x) = x.toNat :=
    ofLittleEndian_littleEndian (Nat.lt_of_lt_of_eq x.toNat_lt (by decide))
  have hlength : ¬(uint64.put x).length < 8 := by rw [length_put_uint64]; decide
  change (if ((uint64.put x ++ rest).take 8).length < 8 then none
    else some (UInt64.ofNat (ofLittleEndian ((uint64.put x ++ rest).take 8)),
      (uint64.put x ++ rest).drop 8)) = _
  rw [htake, hdrop, if_neg hlength, hvalue, UInt64.ofNat_toNat]

theorem take_length {n : Nat} (h : n < UInt64.size) (rest : Bytes) :
    ∃ x : UInt64, uint64.take (uint64.put (UInt64.ofNat n) ++ rest) = some (x, rest) ∧ x.toNat = n :=
  ⟨UInt64.ofNat n, returns_uint64 _ rest, UInt64.toNat_ofNat_of_lt' h⟩

theorem ofUtf8?_utf8 (s : String) : ofUtf8? (utf8 s) = some s := by
  have hbytes : (⟨(utf8 s).toArray⟩ : ByteArray) = s.toByteArray := by rw [utf8_eq]
  rw [ofUtf8?, hbytes, String.fromUTF8?, dif_pos s.isValidUTF8]
  rfl

theorem returns_text {s : String} (h : (utf8 s).length < UInt64.size) : text.Returns s := by
  intro rest
  obtain ⟨n, hn, hlength⟩ := take_length h (utf8 s ++ rest)
  simp only [text, List.append_assoc, hn]
  simp [hlength, ofUtf8?_utf8]

theorem returns_asText {write : α → String} {read : String → Option α} {a : α}
    (hread : read (write a) = some a) (h : (utf8 (write a)).length < UInt64.size) :
    (asText write read).Returns a := by
  intro rest
  simp only [asText, returns_text h rest, Option.bind_some, hread, Option.map_some]

/-! ## Words, addresses and signatures -/

theorem length_utf8_marked {bs : Bytes} (h : bs.length ≤ 65) :
    (utf8 (Hex.marked bs)).length < UInt64.size := by
  have hchars : (Hex.encode bs).length = 2 * bs.length := by
    clear h
    induction bs with
    | nil => rfl
    | cons b bs ih =>
      rw [Hex.encode, List.length_cons, List.length_cons, List.length_cons, ih]
      omega
  have hbytes := length_utf8_ofList_le ('0' :: 'x' :: Hex.encode bs)
  rw [List.length_cons, List.length_cons, hchars] at hbytes
  have hsize : UInt64.size = 2 ^ 64 := rfl
  rw [Hex.marked]
  omega

theorem returns_word (w : Word) : word.Returns w :=
  returns_asText (Hex.parseOctets_marked w) (length_utf8_marked (by rw [w.length_bytes]; decide))

theorem returns_address (a : Address) : address.Returns a := by
  refine returns_asText ?_ (length_utf8_marked (by rw [a.octets.length_bytes]; decide))
  rw [Address.parse_text]
  rfl

theorem returns_signature (g : Signature) : signature.Returns g := by
  refine returns_asText ?_ (length_utf8_marked ?_)
  · rw [Signature.text, Hex.parse_marked, Option.bind_some, Signature.ofBytes_bytes]
    rfl
  · simp [Signature.bytes, g.r.length_bytes, g.s.length_bytes]

/-! ## Lists and values in a row -/

theorem takeItems_flatMap {as : List α} (h : ∀ a ∈ as, p.Returns a) (rest : Bytes) :
    takeItems p as.length (as.flatMap p.put ++ rest) = some (as, rest) := by
  induction as with
  | nil => rfl
  | cons a as ih =>
    have hrest := ih fun b hb => h b (List.mem_cons_of_mem a hb)
    rw [List.flatMap_cons, List.append_assoc, List.length_cons, takeItems,
      h a List.mem_cons_self]
    simp [hrest]

theorem length_le_flatMap {as : List α} (h : ∀ a ∈ as, p.put a ≠ []) :
    as.length ≤ (as.flatMap p.put).length := by
  induction as with
  | nil => exact Nat.le_refl 0
  | cons a as ih =>
    have hown : 0 < (p.put a).length := List.length_pos_iff.mpr (h a List.mem_cons_self)
    have hrest := ih fun b hb => h b (List.mem_cons_of_mem a hb)
    rw [List.flatMap_cons, List.length_append, List.length_cons]
    omega

theorem returns_list {as : List α} (h : ∀ a ∈ as, p.Returns a) (hne : ∀ a ∈ as, p.put a ≠ [])
    (hlength : as.length < UInt64.size) : (list p).Returns as := by
  intro rest
  obtain ⟨n, hn, hcount⟩ := take_length hlength (as.flatMap p.put ++ rest)
  have henough : ¬(as.flatMap p.put ++ rest).length < as.length := by
    have hle := length_le_flatMap hne
    rw [List.length_append]
    omega
  simp only [list, List.append_assoc, hn, Option.bind_eq_bind, Option.bind_some, hcount,
    if_neg henough, takeItems_flatMap h]

theorem put_address_ne_nil (a : Address) : address.put a ≠ [] := by
  intro h
  have hlength := congrArg List.length h
  change (uint64.put _ ++ utf8 a.text).length = 0 at hlength
  rw [List.length_append, length_put_uint64] at hlength
  omega

theorem returns_addresses {as : List Address} (h : as.length < UInt64.size) :
    (list address).Returns as :=
  returns_list (fun a _ => returns_address a) (fun a _ => put_address_ne_nil a) h

theorem returns_unit : unit.Returns () := fun _ => rfl

theorem Returns.and {a : α} {b : β} (ha : p.Returns a) (hb : q.Returns b) :
    (p.and q).Returns (a, b) := by
  intro rest
  simp only [Packed.and, List.append_assoc, ha (q.put b ++ rest)]
  simp [hb rest]

theorem Returns.parse {a : α} (h : p.Returns a) (tail : Bytes) :
    p.parse (p.put a ++ tail) = some a := by
  rw [Packed.parse, h tail, Option.map_some]

end Packed

/-! ## Messages -/

/-- The peer and the lists are no longer than a number of 64 bits says, as everything is
that a machine holds. -/
def Body.InMemory : {k : Kind} → Body k → Prop
  | _, .register _ peer => (utf8 peer).length < UInt64.size
  | _, .roundOpened _ eligible _ => eligible.length < UInt64.size
  | _, .commitClosed _ _ committed _ => committed.length < UInt64.size
  | _, .commit .. => True
  | _, .cos .. => True
  | _, .requestSecret .. => True
  | _, .secretValue .. => True

namespace Message

open Packed

variable {k : Kind}

theorem returns_values {m : Message k} (h : m.body.InMemory) : k.packed.Returns m.values := by
  obtain ⟨body, g⟩ := m
  have hg : Kind.packedSignature.Returns (g, ()) := (returns_signature g).and returns_unit
  cases body with
  | register a peer => exact (returns_address a).and ((returns_text h).and hg)
  | roundOpened round as a =>
    exact (returns_uint64 round).and ((returns_addresses h).and ((returns_address a).and hg))
  | commit round a cvs shut =>
    exact (returns_uint64 round).and
      ((returns_address a).and ((returns_word cvs).and ((returns_word shut).and hg)))
  | commitClosed round root as a =>
    exact (returns_uint64 round).and
      ((returns_word root).and ((returns_addresses h).and ((returns_address a).and hg)))
  | cos round a cos =>
    exact (returns_uint64 round).and ((returns_address a).and ((returns_word cos).and hg))
  | requestSecret round a => exact (returns_uint64 round).and ((returns_address a).and hg)
  | secretValue round a secret =>
    exact (returns_uint64 round).and ((returns_address a).and ((returns_word secret).and hg))

theorem ofValues_values (m : Message k) : ofValues k m.values = m := by
  obtain ⟨body, g⟩ := m
  cases body <;> rfl

theorem decode_binary {m : Message k} (h : m.body.InMemory) (tail : Bytes) :
    (Payload.binary (m.binary ++ tail)).decode k = .ok m := by
  rw [Payload.decode, binary, (returns_values h).parse tail]
  exact congrArg Except.ok (ofValues_values m)

theorem decodeSigned_of_decode {m : Message k} {p : Payload} (h : p.decode k = .ok m) :
    p.decodeSigned k = (m.checkSender.map fun _ => m).mapError .auth := by
  rw [Payload.decodeSigned, h]
  rfl

/-- Neither encoding loses anything: the message comes back from its JSON, and from its
bytes with any others behind them. Either way it is accepted, or it is refused for the
same defect of its signature. -/
theorem decode_of_encodings (m : Message k) :
    (Payload.text m.json).decode k = .ok m ∧
      (m.body.InMemory → ∀ tail,
        (Payload.binary (m.binary ++ tail)).decode k = .ok m ∧
        (m.checkSender = .ok () ∧
            (Payload.text m.json).decodeSigned k = .ok m ∧
            (Payload.binary (m.binary ++ tail)).decodeSigned k = .ok m ∨
          ∃ e, m.checkSender = .error e ∧
            (Payload.text m.json).decodeSigned k = .error (.auth e) ∧
            (Payload.binary (m.binary ++ tail)).decodeSigned k = .error (.auth e))) := by
  refine ⟨decode_json m, fun h tail => ⟨decode_binary h tail, ?_⟩⟩
  have htext := decodeSigned_of_decode (decode_json m)
  have hbinary := decodeSigned_of_decode (decode_binary h tail)
  cases hcheck : m.checkSender with
  | ok =>
    rw [hcheck] at htext hbinary
    exact .inl ⟨rfl, htext, hbinary⟩
  | error e =>
    rw [hcheck] at htext hbinary
    exact .inr ⟨e, rfl, htext, hbinary⟩

/-- An unsigned registration whose peer is a quote, a backslash, a line break, a control
character and two characters beyond ASCII. -/
def quoting : Message .register :=
  ⟨.register ⟨Octets.zero 20⟩ "\"\\\n\x01é😀", .blank⟩

theorem decode_of_encodings_quoting :
    (Payload.text quoting.json).decode .register = .ok quoting ∧
      (Payload.binary (quoting.binary ++ [255])).decode .register = .ok quoting ∧
      (Payload.text quoting.json).decodeSigned .register =
        (Payload.binary (quoting.binary ++ [255])).decodeSigned .register := by
  obtain ⟨htext, hrest⟩ := decode_of_encodings quoting
  have hpeer : quoting.body.InMemory :=
    Nat.lt_of_le_of_lt (length_utf8_ofList_le ['"', '\\', '\n', '\x01', 'é', '😀']) (by decide)
  obtain ⟨hbinary, ⟨-, ht, hb⟩ | ⟨e, -, ht, hb⟩⟩ := hrest hpeer [255]
  · exact ⟨htext, hbinary, ht.trans hb.symm⟩
  · exact ⟨htext, hbinary, ht.trans hb.symm⟩

end Message

end Beacon
