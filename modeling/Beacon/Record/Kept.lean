import Beacon.Json.Strict
import Beacon.Record.Rounds
import Beacon.Time.Rfc3339

/-
  The JSON records that are kept on disk besides those of rounds: an operator's
  own commitment with its seal, the order of reveals that a leader determined,
  and the book of registered operators.

  The record of a commitment holds the fields of the commitment and two of its
  own side by side. It is read from an object only. Its own fields are read where
  they stand, and all other members are kept, strictly, until the end of the
  object, when the fields of the commitment are read from them.
-/

namespace Beacon

/-- An operator's commitment, its secret sealed, and when it was made. -/
structure SealedCommitment where
  commitment : Commitment
  sealed : Word
  createdAt : Instant
  deriving DecidableEq

/-- The order of reveals of one round: by place, and by operator. -/
structure OrderRecord where
  round : UInt64
  combined : Word
  order : List Nat
  operators : List Address
  merkleRoot : Word
  deriving DecidableEq

/-- The registered operators and the names of their peers, by ascending address. -/
abbrev AddressBook := List (Address × String)

namespace AddressBook

/-- The book with the peer of an operator, in place of an earlier one. -/
def insert (operator : Address) (peer : String) : AddressBook → AddressBook
  | [] => [(operator, peer)]
  | (a, p) :: rest =>
    if a = operator then (operator, peer) :: rest
    else if operator.rank < a.rank then (operator, peer) :: (a, p) :: rest
    else (a, p) :: insert operator peer rest

def peer? (book : AddressBook) (operator : Address) : Option String :=
  (book.find? (·.1 = operator)).map (·.2)

def operators (book : AddressBook) : List Address := book.map (·.1)

end AddressBook

namespace SealedCommitment

def ownFields : Fields [Word, Instant] :=
  .need "sealed" .word <| .need "created_at" .instant .nil

/-- Goes through the members of an object; the answer holds the own fields and all
other members, latest first. -/
def split (slots : Slots [Word, Instant]) (others : List (List Char × Json)) :
    List (List Char × Json) → Except ReadError (Slots [Word, Instant] × List (List Char × Json))
  | [] => .ok (slots, others)
  | (key, v) :: ms =>
    match Json.textOf? key with
    | none => .error .malformed
    | some k =>
      if k = "sealed" ∨ k = "created_at" then
        (ownFields.put slots k v).bind fun slots => split slots others ms
      else if Json.isStrict v then split slots ((key, v) :: others) ms
      else .error .malformed

def ofMembers (ms : List (List Char × Json)) : Except ReadError SealedCommitment := do
  let (slots, others) ← split ownFields.empty [] ms
  let (sealed, createdAt, ()) ← ownFields.fill slots
  let values ← (Commitment.fields.putAll Commitment.fields.empty others.reverse).bind
    Commitment.fields.fill
  return { commitment := .ofValues values, sealed, createdAt }

end SealedCommitment

namespace Format

open Fields (need)

def sealedCommitment : Format SealedCommitment where
  write c := .object (Commitment.fields.members c.commitment.values ++
    SealedCommitment.ownFields.members (c.sealed, c.createdAt, ()))
  read
    | .object ms => SealedCommitment.ofMembers ms
    | _ => .error .malformed

def orderRecord : Format OrderRecord :=
  (need "round" .uint64 <| need "combined" .word <| need "order" (.list .index) <|
    need "operators" (.list .address) <| need "merkle_root" .word .nil).record
    (fun o => (o.round, o.combined, o.order, o.operators, o.merkleRoot, ()))
    fun (round, combined, order, operators, merkleRoot, ()) =>
      { round, combined, order, operators, merkleRoot }

/-- The book of registered operators: an object with a member for each. Of two
members of one operator the later one counts. -/
def addressBook : Format AddressBook where
  write book := .object (book.map fun e => (Json.escape e.1.text.toList, text.write e.2))
  read
    | .object ms => ms.foldlM entry []
    | _ => .error .malformed
where
  entry (book : AddressBook) (m : List Char × Json) : Except ReadError AddressBook := do
    let operator ← address.read (.string m.1)
    let peer ← text.read m.2
    return AddressBook.insert operator peer book

end Format

end Beacon
