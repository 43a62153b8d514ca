import Beacon.Record.Kept
import Beacon.Signature.Signer
import Beacon.Store.Disk

/-
  What nodes keep in their data directory. Every record is a file of pretty JSON
  under a name of its own; the private key is a file of 64 digits. A file that
  does not hold its record is an error, and is never made anew.
-/

namespace Beacon

inductive FileKey where
  | commitment (round : UInt64)
  | participant (round : UInt64) (operator : Address)
  | order (round : UInt64)
  | addressBook
  | latestRound
  | privateKey
  deriving DecidableEq

namespace FileKey

/-- The name of a file without its last part. -/
def stem : FileKey → String
  | .commitment round => "commit_" ++ Numeral.decimalText round.toNat
  | .participant round operator =>
    "leader_commit_" ++ Numeral.decimalText round.toNat ++ "_" ++ operator.text
  | .order round => "reveal_order_" ++ Numeral.decimalText round.toNat
  | .addressBook => "registered_nodes"
  | .latestRound => "latest_round"
  | .privateKey => "node_key"

def name (k : FileKey) : String :=
  match k with
  | .privateKey => k.stem ++ ".hex"
  | _ => k.stem ++ ".json"

/-- The name of the temporary file by way of which a file is replaced. -/
def temporary (k : FileKey) : String := k.stem ++ ".tmp"

end FileKey

inductive StoreError where
  | io (file : String)
  | corrupt (file : String) (cause : ReadError)
  | invalidKey (file : String)
  deriving DecidableEq

def StoreError.code : StoreError → String
  | .io _ => "Io"
  | .corrupt _ _ => "Corrupt"
  | .invalidKey _ => "InvalidKey"

def StoreError.file : StoreError → String
  | .io file => file
  | .corrupt file _ => file
  | .invalidKey file => file

namespace Disk

/-! ## Files by key -/

/-- The text of a file, if there is one. -/
def readFile (d : Disk) (k : FileKey) : Except StoreError (Option String) :=
  (d.read k.name).mapError fun _ => .io k.name

def replaceFile (d : Disk) (k : FileKey) (text : String) : Disk × Except StoreError Unit :=
  let (d, result) := d.replace k.name k.temporary text
  (d, result.mapError fun _ => .io k.name)

/-- The record of a file, if there is one. -/
def load {α : Type} (d : Disk) (k : FileKey) (f : Format α) : Except StoreError (Option α) :=
  (d.readFile k).bind fun
    | none => .ok none
    | some text => (f.parse text).map some |>.mapError (.corrupt k.name)

def save {α : Type} (d : Disk) (k : FileKey) (f : Format α) (a : α) : Disk × Except StoreError Unit :=
  d.replaceFile k (f.print .pretty a)

/-! ## Records -/

def saveCommitment (d : Disk) (c : SealedCommitment) : Disk × Except StoreError Unit :=
  d.save (.commitment c.commitment.round) .sealedCommitment c

def loadCommitment (d : Disk) (round : UInt64) : Except StoreError (Option SealedCommitment) :=
  d.load (.commitment round) .sealedCommitment

def saveParticipant (d : Disk) (round : UInt64) (p : Participant) : Disk × Except StoreError Unit :=
  d.save (.participant round p.operator) .participant p

def saveOrder (d : Disk) (o : OrderRecord) : Disk × Except StoreError Unit :=
  d.save (.order o.round) .orderRecord o

def loadOrder (d : Disk) (round : UInt64) : Except StoreError (Option OrderRecord) :=
  d.load (.order round) .orderRecord

def saveBook (d : Disk) (book : AddressBook) : Disk × Except StoreError Unit :=
  d.save .addressBook .addressBook book

/-- The book of registered operators, empty if none is kept. -/
def loadBook (d : Disk) : Except StoreError AddressBook :=
  (d.load .addressBook .addressBook).map fun book => book.getD []

def saveLatest (d : Disk) (round : UInt64) : Disk × Except StoreError Unit :=
  d.save .latestRound .uint64 round

def loadLatest (d : Disk) : Except StoreError (Option UInt64) := d.load .latestRound .uint64

/-! ## The private key -/

/-- The signer whose key is kept; where none is, the fresh one is kept and given. -/
def loadSigner (d : Disk) (fresh : Signer) : Disk × Except StoreError Signer :=
  match d.readFile .privateKey with
  | .error e => (d, .error e)
  | .ok (some text) =>
    (d, (Signer.parse text).mapError fun _ => .invalidKey (FileKey.name .privateKey))
  | .ok none =>
    let (d, result) := d.replaceFile .privateKey fresh.secretText
    (d, result.map fun _ => fresh)

end Disk

end Beacon
