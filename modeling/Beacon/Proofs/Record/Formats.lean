import Beacon.Proofs.Record.Kept
import Beacon.Record.Kept

/-
  Records that are kept on disk or handed out. Each is written from its parts in a fixed
  order, and each part is kept by the format of its type, so that the text of a record in
  either layout is read back as the record (`RecordKind.parse_print_of_placesFit`). Only the places in
  lists must fit a number of 64 bits; the numbers of the delay function are of any size.
-/

namespace Beacon

namespace Format

/-! ## Proofs -/

theorem keeps_commitment (c : Commitment) : commitment.Keeps c :=
  Fields.keeps_record (by decide) (SealedCommitment.keep_commitment c) rfl

theorem keeps_merkleStep (s : MerkleStep) : merkleStep.Keeps s :=
  Fields.keeps_record (by decide) ⟨keeps_word s.sibling, keeps_bool s.isRight, trivial⟩ rfl

theorem keeps_merkleProof {p : MerkleProof} (h : p.leafIndex < UInt64.size) :
    merkleProof.Keeps p :=
  Fields.keeps_record (by decide)
    ⟨keeps_below h, keeps_list fun s _ => keeps_merkleStep s, trivial⟩ rfl

theorem keeps_revealOrder {o : RevealOrder} (h : ∀ i ∈ o.order, i < UInt64.size) :
    revealOrder.Keeps o :=
  Fields.keeps_record (by decide)
    ⟨keeps_word o.combined, keeps_list fun i hi => keeps_below (h i hi), trivial⟩ rfl

theorem keeps_delayParams (p : DelayParams) : delayParams.Keeps p :=
  Fields.keeps_record (by decide) ⟨keeps_large p.modulus, keeps_uint64 p.delay, trivial⟩ rfl

theorem keeps_delayClaim (c : DelayClaim) : delayClaim.Keeps c :=
  Fields.keeps_record (by decide)
    ⟨keeps_large c.n, keeps_large c.x, keeps_large c.y, keeps_uint64 c.t, keeps_large c.v,
      trivial⟩ rfl

theorem keeps_delayProof (p : DelayProof) : delayProof.Keeps p :=
  Fields.keeps_record (by decide) ⟨keeps_list fun c _ => keeps_delayClaim c, trivial⟩ rfl

theorem keeps_puzzle (p : Puzzle) : puzzle.Keeps p :=
  Fields.keeps_record (by decide)
    ⟨keeps_uint64 p.round, keeps_address p.operator, keeps_word p.cvs, keeps_word p.sealed,
      trivial⟩ rfl

theorem keeps_recovery (r : Recovery) : recovery.Keeps r :=
  Fields.keeps_record (by decide)
    ⟨keeps_uint64 r.round, keeps_address r.operator, keeps_word r.secret,
      keeps_delayProof r.proof, trivial⟩ rfl

/-! ## Rounds -/

theorem keeps_standing (s : Standing) : standing.Keeps s :=
  keeps_name (by cases s <;> rfl)

theorem keeps_optional_word (o : Option Word) : (optional word).Keeps o :=
  keeps_optional (fun w _ => keeps_word w) fun _ _ h => nomatch h

theorem keeps_optional_recovery (o : Option Recovery) : (optional recovery).Keeps o :=
  keeps_optional (fun r _ => keeps_recovery r) fun _ _ h => nomatch h

theorem keeps_participant {p : Participant} (h : p.commitIndex < UInt64.size) :
    participant.Keeps p :=
  Fields.keeps_record (by decide)
    ⟨keeps_address p.operator, keeps_below h, keeps_word p.cvs, keeps_word p.sealed,
      keeps_optional_word p.cos, keeps_optional_word p.secret, keeps_standing p.standing,
      keeps_optional_recovery p.recovery, trivial⟩ rfl

theorem keeps_addresses (as : List Address) : (list address).Keeps as :=
  keeps_list fun a _ => keeps_address a

theorem keeps_roundOutcome (o : RoundOutcome) : roundOutcome.Keeps o :=
  Fields.keeps_record (by decide)
    ⟨keeps_uint64 o.round, keeps_word o.merkleRoot, keeps_optional_word o.combined,
      keeps_addresses o.revealOrder,
      keeps_list fun s _ => keeps_pair (keeps_address s.1) (keeps_wordBytes s.2),
      keeps_list fun r _ => keeps_recovery r, keeps_addresses o.faulted,
      keeps_word o.randomValue, trivial⟩ rfl

theorem keeps_orderRecord {o : OrderRecord} (h : ∀ i ∈ o.order, i < UInt64.size) :
    orderRecord.Keeps o :=
  Fields.keeps_record (by decide)
    ⟨keeps_uint64 o.round, keeps_word o.combined, keeps_list fun i hi => keeps_below (h i hi),
      keeps_addresses o.operators, keeps_word o.merkleRoot, trivial⟩ rfl

end Format

/-! ## All records -/

/-- The kinds of records that are kept or handed out. -/
inductive RecordKind where
  | participant
  | roundOutcome
  | sealedCommitment
  | orderRecord
  | commitment
  | merkleProof
  | revealOrder
  | delayParams
  | delayProof
  | puzzle
  | recovery

namespace RecordKind

def Carrier : RecordKind → Type
  | .participant => Participant
  | .roundOutcome => RoundOutcome
  | .sealedCommitment => SealedCommitment
  | .orderRecord => OrderRecord
  | .commitment => Commitment
  | .merkleProof => MerkleProof
  | .revealOrder => RevealOrder
  | .delayParams => DelayParams
  | .delayProof => DelayProof
  | .puzzle => Puzzle
  | .recovery => Recovery

def format : (k : RecordKind) → Format k.Carrier
  | .participant => .participant
  | .roundOutcome => .roundOutcome
  | .sealedCommitment => .sealedCommitment
  | .orderRecord => .orderRecord
  | .commitment => .commitment
  | .merkleProof => .merkleProof
  | .revealOrder => .revealOrder
  | .delayParams => .delayParams
  | .delayProof => .delayProof
  | .puzzle => .puzzle
  | .recovery => .recovery

/-- The places in lists that a record holds are numbers of 64 bits. -/
def PlacesFit : (k : RecordKind) → k.Carrier → Prop
  | .participant, p => p.commitIndex < UInt64.size
  | .merkleProof, p => p.leafIndex < UInt64.size
  | .revealOrder, o => ∀ i ∈ o.order, i < UInt64.size
  | .orderRecord, o => ∀ i ∈ o.order, i < UInt64.size
  | .roundOutcome, _ => True
  | .sealedCommitment, _ => True
  | .commitment, _ => True
  | .delayParams, _ => True
  | .delayProof, _ => True
  | .puzzle, _ => True
  | .recovery, _ => True

theorem keeps_format : (k : RecordKind) → {a : k.Carrier} → k.PlacesFit a → k.format.Keeps a
  | .participant, _, h => Format.keeps_participant h
  | .roundOutcome, o, _ => Format.keeps_roundOutcome o
  | .sealedCommitment, c, _ => Format.keeps_sealedCommitment c
  | .orderRecord, _, h => Format.keeps_orderRecord h
  | .commitment, c, _ => Format.keeps_commitment c
  | .merkleProof, _, h => Format.keeps_merkleProof h
  | .revealOrder, _, h => Format.keeps_revealOrder h
  | .delayParams, p, _ => Format.keeps_delayParams p
  | .delayProof, p, _ => Format.keeps_delayProof p
  | .puzzle, p, _ => Format.keeps_puzzle p
  | .recovery, r, _ => Format.keeps_recovery r

/-- The text of a record, compact or with one member a line, is read back as the
record. -/
theorem parse_print_of_placesFit {k : RecordKind} {a : k.Carrier} (h : k.PlacesFit a)
    (l : Json.Layout) : k.format.parse (k.format.print l a) = .ok a :=
  Format.parse_print (k.keeps_format h) l

/-- A participant at the last place there is, of whom everything is known but the first
stage, and whose recovery claims a power of zero for a large modulus. -/
def lastRecovered : Participant where
  operator := ⟨Octets.zero 20⟩
  commitIndex := UInt64.size - 1
  cvs := Word.zero
  sealed := Word.ofUInt64 255
  cos := none
  secret := some Word.zero
  standing := .recovered
  recovery := some
    { round := 0, operator := ⟨Octets.zero 20⟩, secret := Word.zero,
      proof := ⟨[⟨2 ^ 2048 - 1, 0, 0, 1, 16 ^ 300⟩]⟩ }

theorem parse_print_lastRecovered :
    lastRecovered.commitIndex < UInt64.size ∧
      Format.participant.parse (Format.participant.print .compact lastRecovered) =
        .ok lastRecovered ∧
      Format.participant.parse (Format.participant.print .pretty lastRecovered) =
        .ok lastRecovered := by
  have hplace : lastRecovered.commitIndex < UInt64.size := by decide
  exact ⟨hplace, parse_print_of_placesFit (k := .participant) hplace .compact,
    parse_print_of_placesFit (k := .participant) hplace .pretty⟩

end RecordKind

end Beacon
