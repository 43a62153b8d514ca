import Beacon.Message.Basic
import Beacon.Proofs.Json.Reading

/-
  Formats that lose nothing. A format keeps a value if it writes the value as JSON and
  reads the value back from what it wrote (`Keeps`); the text in either layout then parses
  to the value (`parse_print`). A format made of others keeps what its parts keep: a list
  its items, and a record its fields, if their names differ.
-/

namespace Beacon

namespace Format

variable {α β : Type} {f : Format α}

/-- The format writes a value as JSON and reads it back. -/
structure Keeps (f : Format α) (a : α) : Prop where
  written : (f.write a).Written
  read_write : f.read (f.write a) = .ok a

theorem parse_print {a : α} (h : f.Keeps a) (l : Json.Layout) : f.parse (f.print l a) = .ok a := by
  rw [parse, print, Json.document_print h.written]
  simp [h.read_write, Except.bind]

/-! ## Scalars -/

theorem keeps_text (s : String) : text.Keeps s where
  written := .ofText s
  read_write := by simp [text, expect]

theorem keeps_bool (b : Bool) : bool.Keeps b where
  written := .bool b
  read_write := rfl

theorem keeps_below {bound n : Nat} (h : n < bound) : (below bound).Keeps n where
  written := .ofNat n
  read_write := by simp [below, expect, Json.natural?, Json.ofNat, Option.filter, h]

theorem Keeps.map {back : β → α} {of : α → β} {b : β} (h : f.Keeps (back b))
    (hb : of (back b) = b) : (f.map back of).Keeps b where
  written := h.written
  read_write := by simp [Format.map, h.read_write, Except.map, hb]

theorem keeps_uint64 (n : UInt64) : uint64.Keeps n :=
  (keeps_below n.toNat_lt).map UInt64.ofNat_toNat

theorem keeps_byte (b : UInt8) : byte.Keeps b :=
  (keeps_below b.toNat_lt).map UInt8.ofNat_toNat

theorem read_text {s : String} {read : String → Except ReadError α} :
    (text.read (.ofText s)).bind read = read s := by
  simp [text, expect, Except.bind]

theorem keeps_word (w : Word) : word.Keeps w where
  written := .ofText _
  read_write := by simp [word, read_text]

theorem keeps_address (a : Address) : address.Keeps a where
  written := .ofText _
  read_write := by simp [address, read_text, Except.mapError]

theorem keeps_large (n : Nat) : large.Keeps n where
  written := .ofText _
  read_write := by
    have hmark : Hex.unmarked ('0' :: 'x' :: Numeral.digits 16 n) = Numeral.digits 16 n := by
      rw [Hex.unmarked, Numeral.unmarked_digits]
    simp [large, read_text, hmark, Numeral.parseLarge_digits, expect]

theorem keeps_name {all : List α} {nameOf : α → String} {a : α}
    (h : all.find? (fun b => nameOf b = nameOf a) = some a) : (name all nameOf).Keeps a where
  written := .ofText _
  read_write := by
    simp [name, Json.ofText, name.find, Json.textOf?_escape, h, expect]

end Format

@[simp] theorem Signature.ofBytes_bytes (g : Signature) : Signature.ofBytes g.bytes = .ok g := by
  obtain ⟨⟨r, hr⟩, ⟨s, hs⟩, odd⟩ := g
  have hfirst : (r ++ s ++ [if odd then (1 : UInt8) else 0]).take 32 = r := by
    rw [List.append_assoc, List.take_left' hr]
  have hbehind : (r ++ s ++ [if odd then (1 : UInt8) else 0]).drop 32 =
      s ++ [if odd then 1 else 0] := by
    rw [List.append_assoc, List.drop_left' hr]
  have hsecond : (s ++ [if odd then (1 : UInt8) else 0]).take 32 = s := List.take_left' hs
  have hlast : (r ++ s ++ [if odd then (1 : UInt8) else 0]).drop 64 = [if odd then 1 else 0] :=
    List.drop_left' (by rw [List.length_append, hr, hs])
  have hparity : parity? (if odd then 1 else 0) = some odd := by cases odd <;> rfl
  simp only [ofBytes, bytes, hfirst, hbehind, hsecond, hlast, Octets.ofBytes?, dif_pos hr,
    dif_pos hs, hparity]

namespace Format

variable {α β : Type} {f : Format α}

theorem keeps_signature (g : Signature) : signature.Keeps g where
  written := .ofText _
  read_write := by
    simp only [signature, read_text, Signature.text, Hex.parse_marked]
    simp [expect, Except.bind, Except.mapError]

/-! ## Containers -/

theorem keeps_optional {o : Option α} (h : ∀ a ∈ o, f.Keeps a) (hne : ∀ a ∈ o, f.write a ≠ .null) :
    (optional f).Keeps o := by
  cases o with
  | none => exact ⟨.null, rfl⟩
  | some a =>
    have ha := h a rfl
    refine ⟨ha.written, ?_⟩
    change (optional f).read (f.write a) = .ok (some a)
    simp only [optional]
    split
    · exact absurd ‹_› (hne a rfl)
    · rw [ha.read_write, Except.map]

theorem keeps_list {as : List α} (h : ∀ a ∈ as, f.Keeps a) : (list f).Keeps as where
  written := by
    refine .array fun v hv => ?_
    obtain ⟨a, ha, rfl⟩ := List.mem_map.mp hv
    exact (h a ha).written
  read_write := by
    change (as.map f.write).mapM f.read = .ok as
    induction as with
    | nil => rfl
    | cons a as ih =>
      rw [List.map_cons, List.mapM_cons, (h a List.mem_cons_self).read_write]
      simp only [bind, Except.bind, ih fun b hb => h b (List.mem_cons_of_mem a hb)]
      rfl

theorem keeps_pair {g : Format β} {a : α} {b : β} (ha : f.Keeps a) (hb : g.Keeps b) :
    (pair f g).Keeps (a, b) where
  written := by
    refine .array (List.forall_mem_cons.mpr ⟨ha.written, ?_⟩)
    exact List.forall_mem_singleton.mpr hb.written
  read_write := by simp [pair, ha.read_write, hb.read_write, Except.bind]

theorem keeps_wordBytes (w : Word) : wordBytes.Keeps w where
  written := (keeps_list fun b _ => keeps_byte b).written
  read_write := by
    have hread : (list byte).read ((list byte).write w.bytes) = .ok w.bytes :=
      (keeps_list fun b _ => keeps_byte b).read_write
    simp [wordBytes, hread, Except.bind, Octets.ofBytes?, w.length_bytes, expect]

end Format

/-! ## Records -/

namespace Fields

variable {αs : List Type}

def keys : {αs : List Type} → Fields αs → List String
  | _, .nil => []
  | _, .cons key _ _ rest => key :: rest.keys

/-- Every field keeps its value. -/
def Keep : {αs : List Type} → Fields αs → Values αs → Prop
  | _, .nil, _ => True
  | _, .cons _ format _ rest, (a, as) => format.Keeps a ∧ rest.Keep as

def full : {αs : List Type} → Values αs → Slots αs
  | [], _ => ()
  | _ :: _, (a, as) => (some a, full as)

theorem mem_members : {αs : List Type} → {fs : Fields αs} → {vs : Values αs} → fs.Keep vs →
    ∀ m ∈ fs.members vs, (∃ key ∈ fs.keys, m.1 = Json.escape key.toList) ∧ m.2.Written
  | _, .nil, _, _, _, hm => nomatch hm
  | _, .cons _ _ _ _, (_, _), h, m, hm => by
    rcases List.mem_cons.mp hm with rfl | hm
    · exact ⟨⟨_, List.mem_cons_self, rfl⟩, h.1.written⟩
    · obtain ⟨⟨key, hkey, hm1⟩, hm2⟩ := mem_members h.2 m hm
      exact ⟨⟨key, List.mem_cons_of_mem _ hkey, hm1⟩, hm2⟩

theorem putAll_cons {α : Type} {key : String} {format : Format α} {absent : Option α}
    {rest : Fields αs} {slot : Option α} {slots : Slots αs} {ms : List (List Char × Json)}
    (h : ∀ m ∈ ms, Json.textOf? m.1 ≠ some key) :
    (Fields.cons key format absent rest).putAll (slot, slots) ms =
      (rest.putAll slots ms).map (slot, ·) := by
  induction ms generalizing slots with
  | nil => rfl
  | cons m ms ih =>
    obtain ⟨name, v⟩ := m
    have hname := h _ List.mem_cons_self
    rw [putAll, putAll]
    cases hk : Json.textOf? name with
    | none => rfl
    | some k =>
      have hne : k ≠ key := fun heq => hname (by rw [hk, heq])
      simp only [put, if_neg hne]
      cases rest.put slots k v with
      | error e => rfl
      | ok slots' => exact ih fun m hm => h m (List.mem_cons_of_mem _ hm)

theorem putAll_members : {αs : List Type} → {fs : Fields αs} → {vs : Values αs} →
    fs.keys.Nodup → fs.Keep vs → fs.putAll fs.empty (fs.members vs) = .ok (full vs)
  | _, .nil, _, _, _ => rfl
  | _, .cons key format absent rest, (a, as), hkeys, h => by
    obtain ⟨hfresh, hrest⟩ := List.nodup_cons.mp hkeys
    have hothers : ∀ m ∈ rest.members as, Json.textOf? m.1 ≠ some key := by
      intro m hm heq
      obtain ⟨⟨k, hk, hm1⟩, -⟩ := mem_members h.2 m hm
      rw [hm1, Json.textOf?_escape, Option.some.injEq] at heq
      exact hfresh (heq ▸ hk)
    have hput : (Fields.cons key format absent rest).put (none, rest.empty) key (format.write a) =
        .ok (some a, rest.empty) := by
      simp [put, h.1.read_write, Except.map]
    simp only [members, empty, putAll, Json.textOf?_escape, hput, Except.bind,
      putAll_cons hothers, putAll_members hrest h.2, Except.map, full]

theorem fill_full : {αs : List Type} → (fs : Fields αs) → (vs : Values αs) →
    fs.fill (full vs) = .ok vs
  | _, .nil, () => rfl
  | _, .cons _ _ _ rest, (a, as) => by
    simp [full, fill, Format.expect, Except.bind, Except.map, fill_full rest as]

/-- A record keeps what its fields keep. -/
theorem keeps_record {ρ : Type} {fs : Fields αs} {values : ρ → Values αs} {of : Values αs → ρ}
    {r : ρ} (hkeys : fs.keys.Nodup) (h : fs.Keep (values r)) (hof : of (values r) = r) :
    (fs.record values of).Keeps r where
  written := by
    refine .object (fun m hm => ?_) fun m hm => (mem_members h m hm).2
    obtain ⟨⟨key, -, hm⟩, -⟩ := mem_members h m hm
    exact ⟨key.toList, hm⟩
  read_write := by
    simp [record, read, putAll_members hkeys h, Except.bind, fill_full, Except.map, hof]

end Fields

/-! ## Messages -/

namespace Message

variable {k : Kind}

/-- Messages are kept, whatever they say. -/
theorem keeps_format (m : Message k) : (format k).Keeps m := by
  obtain ⟨body, g⟩ := m
  have hg := Format.keeps_signature g
  have haddresses (as : List Address) : (Format.list .address).Keeps as :=
    Format.keeps_list fun a _ => Format.keeps_address a
  cases body with
  | register a peer =>
    exact Fields.keeps_record (by decide)
      ⟨Format.keeps_address a, Format.keeps_text peer, hg, trivial⟩ rfl
  | roundOpened round as a =>
    exact Fields.keeps_record (by decide)
      ⟨Format.keeps_uint64 round, haddresses as, Format.keeps_address a, hg, trivial⟩ rfl
  | commit round a cvs shut =>
    exact Fields.keeps_record (by decide) ⟨Format.keeps_uint64 round, Format.keeps_address a,
      Format.keeps_word cvs, Format.keeps_word shut, hg, trivial⟩ rfl
  | commitClosed round root as a =>
    exact Fields.keeps_record (by decide) ⟨Format.keeps_uint64 round, Format.keeps_word root,
      haddresses as, Format.keeps_address a, hg, trivial⟩ rfl
  | cos round a cos =>
    exact Fields.keeps_record (by decide) ⟨Format.keeps_uint64 round, Format.keeps_address a,
      Format.keeps_word cos, hg, trivial⟩ rfl
  | requestSecret round a =>
    exact Fields.keeps_record (by decide)
      ⟨Format.keeps_uint64 round, Format.keeps_address a, hg, trivial⟩ rfl
  | secretValue round a secret =>
    exact Fields.keeps_record (by decide) ⟨Format.keeps_uint64 round, Format.keeps_address a,
      Format.keeps_word secret, hg, trivial⟩ rfl

theorem decode_json (m : Message k) : (Payload.text m.json).decode k = .ok m := by
  rw [Payload.decode, json, Format.parse_print (keeps_format m)]
  rfl

end Message

end Beacon
