import Beacon.Message.Basic
import Beacon.Proofs.Octets

/-
  What is signed of a message says which message it is. The bytes that are hashed are the
  tag of the kind, without a length or an end, and words. No tag starts another
  (`eq_of_tag_prefix`), so the kind is told first; then every segment is one word
  (`length_of_mem_words`), so the words are told apart, and their number with them,
  which is the length of the list if there is one.

  The leader is not among what is signed. It is told by the signature: one signature of
  one digest recovers to one address.
-/

namespace Beacon

/-- Two byte strings that differ have one digest. -/
def Collision (x y : Bytes) : Prop := x ≠ y ∧ keccak256 x = keccak256 y

/-! ## Tags -/

namespace Kind

theorem utf8_tag (k : Kind) : utf8 k.tag = k.tag.toList.flatMap String.utf8EncodeChar := by
  rw [← utf8_ofList, String.ofList_toList]

theorem eq_of_tag_prefix {k k' : Kind} (h : utf8 k.tag <+: utf8 k'.tag) : k = k' := by
  rw [utf8_tag, utf8_tag] at h
  revert h
  cases k <;> cases k' <;> decide +kernel

end Kind

/-! ## Words -/

theorem eq_of_flatten {xs ys : List Bytes} (hx : ∀ x ∈ xs, x.length = 32)
    (hy : ∀ y ∈ ys, y.length = 32) (h : xs.flatten = ys.flatten) : xs = ys := by
  -- A word is not empty, so neither list ends before the other.
  have hne {zs : List Bytes} (hz : ∀ z ∈ zs, z.length = 32) (hnil : zs.flatten = []) : zs = [] := by
    refine List.eq_nil_iff_forall_not_mem.mpr fun z hmem => ?_
    have hlength := hz z hmem
    rw [List.flatten_eq_nil_iff.mp hnil z hmem] at hlength
    exact absurd hlength (by decide)
  induction xs generalizing ys with
  | nil => exact (hne hy h.symm).symm
  | cons x xs ih =>
    cases ys with
    | nil => exact hne hx h
    | cons y ys =>
      have hlength := (hx x List.mem_cons_self).trans (hy y List.mem_cons_self).symm
      rw [List.flatten_cons, List.flatten_cons] at h
      obtain ⟨hfirst, hrest⟩ := List.append_inj h hlength
      rw [hfirst, ih (fun z hz => hx z (List.mem_cons_of_mem x hz))
        (fun z hz => hy z (List.mem_cons_of_mem y hz)) hrest]

namespace Body

variable {k k' : Kind} {b : Body k} {b' : Body k'}

def words (b : Body k) : List Bytes := b.segments.map Segment.bytes

/-- Whatever a message says, it is signed in whole words. -/
theorem length_of_mem_words (b : Body k) : ∀ w ∈ b.words, w.length = 32 := by
  have hword (w : Word) : (Segment.word w).bytes.length = 32 := w.length_bytes
  have hnumber (n : UInt64) : (Segment.number n).bytes.length = 32 :=
    (Word.ofUInt64 n).length_bytes
  have haddresses (as : List Address) : ∀ s ∈ addressSegments as, s.bytes.length = 32 := by
    simp [addressSegments, hword, hnumber]
  cases b <;> simp [words, segments, hword, hnumber] <;> exact haddresses _

/-- The number of addresses in front of them adds nothing to what they say. -/
theorem map_addressSegments {as as' : List Address} :
    (addressSegments as).map Segment.bytes = (addressSegments as').map Segment.bytes ↔
      as = as' := by
  refine ⟨fun h => ?_, fun h => by rw [h]⟩
  have hbytes : as.map (fun a => a.word.bytes) = as'.map fun a => a.word.bytes := by
    simpa [addressSegments, Segment.bytes, Function.comp_def] using (List.cons.inj h).2
  exact List.map_inj_right (fun a a' h => Address.word_injective (Octets.ext h)) |>.mp hbytes

/-! ## Messages -/

/-- The bytes that are hashed and signed for a message. -/
def signedBytes (b : Body k) : Bytes := transcript (utf8 k.tag) b.segments

theorem signingDigest_eq (b : Body k) : b.signingDigest = keccak256 b.signedBytes := rfl

/-- Two messages are of one kind and say the same, the leader apart; two peers may differ
if their bytes collide. -/
def Agree : {k k' : Kind} → Body k → Body k' → Prop
  | _, _, .register operator peer, .register operator' peer' =>
    operator = operator' ∧ (peer = peer' ∨ Collision (utf8 peer) (utf8 peer'))
  | _, _, .roundOpened round eligible _, .roundOpened round' eligible' _ =>
    round = round' ∧ eligible = eligible'
  | _, _, .commit round operator cvs shut, .commit round' operator' cvs' shut' =>
    round = round' ∧ operator = operator' ∧ cvs = cvs' ∧ shut = shut'
  | _, _, .commitClosed round root committed _, .commitClosed round' root' committed' _ =>
    round = round' ∧ root = root' ∧ committed = committed'
  | _, _, .cos round operator first, .cos round' operator' first' =>
    round = round' ∧ operator = operator' ∧ first = first'
  | _, _, .requestSecret round _, .requestSecret round' _ => round = round'
  | _, _, .secretValue round operator secret, .secretValue round' operator' secret' =>
    round = round' ∧ operator = operator' ∧ secret = secret'
  | _, _, _, _ => False

theorem keccak256_peer {peer peer' : String} :
    keccak256 (utf8 peer) = keccak256 (utf8 peer') ↔
      peer = peer' ∨ Collision (utf8 peer) (utf8 peer') := by
  constructor
  · intro h
    by_cases hpeer : peer = peer'
    · exact .inl hpeer
    · exact .inr ⟨fun hbytes => hpeer (utf8_injective hbytes), h⟩
  · rintro (rfl | ⟨-, h⟩)
    · rfl
    · exact h

theorem words_eq {b b' : Body k} : b.words = b'.words ↔ b.Agree b' := by
  have hbytes {v w : Word} : v.bytes = w.bytes ↔ v = w := ⟨Octets.ext, congrArg _⟩
  have hnumber {x y : UInt64} : Word.ofUInt64 x = Word.ofUInt64 y ↔ x = y :=
    ⟨Word.ofUInt64_injective, congrArg _⟩
  have haddress {a a' : Address} : a.word = a'.word ↔ a = a' :=
    ⟨Address.word_injective, congrArg _⟩
  cases b <;> cases b' <;>
    simp [words, segments, Agree, Segment.bytes, hbytes, hnumber, haddress, keccak256_peer,
      map_addressSegments]

theorem signedBytes_eq_append (b : Body k) : b.signedBytes = utf8 k.tag ++ b.words.flatten := by
  rw [signedBytes, transcript, words, List.flatMap_def]

theorem Agree.kind_eq (h : b.Agree b') : k = k' := by
  cases b <;> cases b' <;> first | rfl | exact h.elim

theorem signedBytes_eq : b.signedBytes = b'.signedBytes ↔ b.Agree b' := by
  rw [signedBytes_eq_append, signedBytes_eq_append]
  constructor
  · intro h
    have hkind : k = k' := by
      have hleft : utf8 k.tag <+: utf8 k.tag ++ b.words.flatten := List.prefix_append _ _
      have hright : utf8 k'.tag <+: utf8 k.tag ++ b.words.flatten := h ▸ List.prefix_append _ _
      rcases List.prefix_or_prefix_of_prefix hleft hright with hp | hp
      · exact Kind.eq_of_tag_prefix hp
      · exact (Kind.eq_of_tag_prefix hp).symm
    subst hkind
    exact words_eq.mp (eq_of_flatten b.length_of_mem_words b'.length_of_mem_words
      (List.append_cancel_left h))
  · intro h
    obtain rfl := h.kind_eq
    rw [words_eq.mpr h]

end Body

theorem Signature.checkSigner_eq_ok {d : Word} {g : Signature} {a : Address} :
    g.checkSigner d a = .ok () ↔ recover d g = .ok a := by
  rw [checkSigner]
  cases recover d g with
  | error e => simp [Except.bind]
  | ok recovered =>
    by_cases h : recovered = a
    · simp [Except.bind, h]
    · simp [Except.bind, h]

namespace Message

variable {k k' : Kind}

theorem checkSender_eq_ok {m : Message k} :
    m.checkSender = .ok () ↔ Signature.recover m.body.signingDigest m.signature = .ok m.body.sender :=
  Signature.checkSigner_eq_ok

/-- The bytes that are hashed and signed determine the message: its kind and whatever it
says, but for two peers whose bytes collide, and but for the leader. The leader is the
one whose signature it is. -/
theorem determined_by_signedBytes {m : Message k} {m' : Message k'}
    (h : m.body.signedBytes = m'.body.signedBytes) :
    k = k' ∧ m.body.Agree m'.body ∧
      (m.signature = m'.signature → m.checkSender = .ok () → m'.checkSender = .ok () →
        m.body.sender = m'.body.sender) := by
  have hagree := Body.signedBytes_eq.mp h
  refine ⟨hagree.kind_eq, hagree, fun hg hm hm' => ?_⟩
  have hdigest : m.body.signingDigest = m'.body.signingDigest := by
    rw [Body.signingDigest_eq, Body.signingDigest_eq, h]
  rw [checkSender_eq_ok] at hm hm'
  rw [hdigest, hg, hm', Except.ok.injEq] at hm
  exact hm.symm

def closing (leader : Address) : Message .commitClosed :=
  ⟨.commitClosed 7 Word.zero [⟨Octets.ofNat 20 2⟩, ⟨Octets.ofNat 20 3⟩] leader, .blank⟩

theorem determined_by_signedBytes_closing :
    (closing ⟨Octets.zero 20⟩).body.signedBytes = (closing ⟨Octets.ofNat 20 1⟩).body.signedBytes ∧
      (closing ⟨Octets.zero 20⟩).body.Agree (closing ⟨Octets.ofNat 20 1⟩).body := by
  have hbytes : (closing ⟨Octets.zero 20⟩).body.signedBytes =
      (closing ⟨Octets.ofNat 20 1⟩).body.signedBytes := rfl
  obtain ⟨-, hagree, -⟩ := determined_by_signedBytes hbytes
  exact ⟨hbytes, hagree⟩

end Message

/-! ## Payloads -/

/-- A payload writes a message whose signature recovers to the sender it names. -/
structure Payload.SignedAs {k : Kind} (p : Payload) (m : Message k) : Prop where
  decoded : p.decode k = .ok m
  recovered : Signature.recover m.body.signingDigest m.signature = .ok m.body.sender

theorem Payload.decodeSigned_eq_ok {k : Kind} {p : Payload} {m : Message k} :
    p.decodeSigned k = .ok m ↔ p.SignedAs m := by
  constructor
  · intro h
    rw [decodeSigned] at h
    cases hdecode : p.decode k with
    | error e =>
      rw [hdecode] at h
      cases h
    | ok n =>
      cases hcheck : n.checkSender with
      | error e =>
        rw [hdecode, Except.bind, hcheck] at h
        cases h
      | ok =>
        rw [hdecode, Except.bind, hcheck] at h
        cases h
        exact ⟨hdecode, Message.checkSender_eq_ok.mp hcheck⟩
  · intro h
    rw [decodeSigned, h.decoded, Except.bind, Message.checkSender_eq_ok.mpr h.recovered]
    rfl

end Beacon
