import Beacon.Digest.Keccak
import Beacon.Json.Format
import Beacon.Message.Kind
import Beacon.Message.Packed
import Beacon.Signature.Signer

/-
  Messages between operators and the leader. A message says who sends it and is
  signed over the tag of its kind and its fields; it is acted on only if the
  signature is the sender's. It travels as JSON or packed.
-/

namespace Beacon

/-- What a message of a kind says. The sender is the operator or the leader. -/
inductive Body : Kind → Type where
  | register (operator : Address) (peer : String) : Body .register
  | roundOpened (round : UInt64) (eligible : List Address) (leader : Address) : Body .roundOpened
  | commit (round : UInt64) (operator : Address) (cvs sealed : Word) : Body .commit
  | commitClosed (round : UInt64) (merkleRoot : Word) (committed : List Address)
      (leader : Address) : Body .commitClosed
  | cos (round : UInt64) (operator : Address) (cos : Word) : Body .cos
  | requestSecret (round : UInt64) (leader : Address) : Body .requestSecret
  | secretValue (round : UInt64) (operator : Address) (secret : Word) : Body .secretValue
  deriving DecidableEq

namespace Body

/-- Who claims to send the message. -/
def sender : {k : Kind} → Body k → Address
  | _, .register operator _ => operator
  | _, .roundOpened _ _ leader => leader
  | _, .commit _ operator _ _ => operator
  | _, .commitClosed _ _ _ leader => leader
  | _, .cos _ operator _ => operator
  | _, .requestSecret _ leader => leader
  | _, .secretValue _ operator _ => operator

/-- A list of addresses as it is signed: their number first. -/
def addressSegments (as : List Address) : List Segment :=
  .number (UInt64.ofNat as.length) :: as.map fun a => .word a.word

/-- What is signed of a message, behind the tag of its kind. -/
def segments : {k : Kind} → Body k → List Segment
  | _, .register operator peer => [.word operator.word, .word (keccak256 (utf8 peer))]
  | _, .roundOpened round eligible _ => .number round :: addressSegments eligible
  | _, .commit round operator cvs sealed =>
    [.number round, .word operator.word, .word cvs, .word sealed]
  | _, .commitClosed round merkleRoot committed _ =>
    .number round :: .word merkleRoot :: addressSegments committed
  | _, .cos round operator first => [.number round, .word operator.word, .word first]
  | _, .requestSecret round _ => [.number round]
  | _, .secretValue round operator secret => [.number round, .word operator.word, .word secret]

def signingDigest {k : Kind} (b : Body k) : Word := digest (utf8 k.tag) b.segments

end Body

structure Message (kind : Kind) where
  body : Body kind
  signature : Signature
  deriving DecidableEq

inductive MessageError where
  | json (cause : ReadError)
  | binary
  | auth (cause : AuthError)
  | unknownPath (path : String)
  deriving DecidableEq

/-- The wording of a refusal, if this library words it: texts and bytes that are no
message have none. -/
def MessageError.message? : MessageError → Option String
  | .json _ => none
  | .binary => none
  | .auth cause => some ("auth: " ++ cause.message)
  | .unknownPath path => some ("unknown protocol: " ++ path)

def MessageError.code : MessageError → String
  | .json _ => "Json"
  | .binary => "Binary"
  | .auth _ => "Auth"
  | .unknownPath _ => "UnknownProtocol"

def Kind.ofPath (path : String) : Except MessageError Kind :=
  match Kind.ofPath? path with
  | some k => .ok k
  | none => .error (.unknownPath path)

def Format.kind : Format Kind := name Kind.all Kind.name

namespace Message

variable {k : Kind}

/-- The message that a signer sends; what it says is made from the sender. -/
def signed (make : Address → Body k) (signer : Signer) : Except AuthError (Message k) :=
  let body := make signer.address
  (signer.sign body.signingDigest).map fun signature => { body, signature }

def checkSender (m : Message k) : Except AuthError Unit :=
  m.signature.checkSigner m.body.signingDigest m.body.sender

end Message

/-! ## Fields -/

namespace Kind

/-- The types of the fields of a kind, the signature last. -/
def types : Kind → List Type
  | .register => [Address, String, Signature]
  | .roundOpened => [UInt64, List Address, Address, Signature]
  | .commit => [UInt64, Address, Word, Word, Signature]
  | .commitClosed => [UInt64, Word, List Address, Address, Signature]
  | .cos => [UInt64, Address, Word, Signature]
  | .requestSecret => [UInt64, Address, Signature]
  | .secretValue => [UInt64, Address, Word, Signature]

open Fields (need)

def signatureField : Fields [Signature] := need "signature" .signature .nil

def fields : (k : Kind) → Fields k.types
  | .register => need "operator" .address <| need "peer" .text signatureField
  | .roundOpened => need "round" .uint64 <| need "eligible" (.list .address) <|
    need "leader" .address signatureField
  | .commit => need "round" .uint64 <| need "operator" .address <| need "cvs" .word <|
    need "sealed" .word signatureField
  | .commitClosed => need "round" .uint64 <| need "merkle_root" .word <|
    need "committed" (.list .address) <| need "leader" .address signatureField
  | .cos => need "round" .uint64 <| need "operator" .address <| need "cos" .word signatureField
  | .requestSecret => need "round" .uint64 <| need "leader" .address signatureField
  | .secretValue => need "round" .uint64 <| need "operator" .address <|
    need "secret" .word signatureField

def packedSignature : Packed (Values [Signature]) := Packed.and .signature .unit

def packed : (k : Kind) → Packed (Values k.types)
  | .register => Packed.and .address <| Packed.and .text packedSignature
  | .roundOpened => Packed.and .uint64 <| Packed.and (.list .address) <|
    Packed.and .address packedSignature
  | .commit => Packed.and .uint64 <| Packed.and .address <| Packed.and .word <|
    Packed.and .word packedSignature
  | .commitClosed => Packed.and .uint64 <| Packed.and .word <| Packed.and (.list .address) <|
    Packed.and .address packedSignature
  | .cos => Packed.and .uint64 <| Packed.and .address <| Packed.and .word packedSignature
  | .requestSecret => Packed.and .uint64 <| Packed.and .address packedSignature
  | .secretValue => Packed.and .uint64 <| Packed.and .address <| Packed.and .word packedSignature

end Kind

namespace Message

def values : {k : Kind} → Message k → Values k.types
  | _, ⟨.register operator peer, g⟩ => (operator, peer, g, ())
  | _, ⟨.roundOpened round eligible leader, g⟩ => (round, eligible, leader, g, ())
  | _, ⟨.commit round operator cvs sealed, g⟩ => (round, operator, cvs, sealed, g, ())
  | _, ⟨.commitClosed round root committed leader, g⟩ => (round, root, committed, leader, g, ())
  | _, ⟨.cos round operator cos, g⟩ => (round, operator, cos, g, ())
  | _, ⟨.requestSecret round leader, g⟩ => (round, leader, g, ())
  | _, ⟨.secretValue round operator secret, g⟩ => (round, operator, secret, g, ())

def ofValues : (k : Kind) → Values k.types → Message k
  | .register, (operator, peer, g, ()) => ⟨.register operator peer, g⟩
  | .roundOpened, (round, eligible, leader, g, ()) => ⟨.roundOpened round eligible leader, g⟩
  | .commit, (round, operator, cvs, sealed, g, ()) => ⟨.commit round operator cvs sealed, g⟩
  | .commitClosed, (round, root, committed, leader, g, ()) =>
    ⟨.commitClosed round root committed leader, g⟩
  | .cos, (round, operator, cos, g, ()) => ⟨.cos round operator cos, g⟩
  | .requestSecret, (round, leader, g, ()) => ⟨.requestSecret round leader, g⟩
  | .secretValue, (round, operator, secret, g, ()) => ⟨.secretValue round operator secret, g⟩

def format (k : Kind) : Format (Message k) := k.fields.record values (ofValues k)

def json (m : Message k) : String := (format k).print .compact m

def binary (m : Message k) : Bytes := k.packed.put m.values

end Message

/-! ## Payloads -/

/-- What arrives on a path. -/
inductive Payload where
  | text (content : String)
  | binary (content : Bytes)
  deriving DecidableEq

namespace Payload

def size : Payload → Nat
  | .text content => content.utf8ByteSize
  | .binary content => content.length

/-- The message of a kind that a payload writes. -/
def decode (k : Kind) : Payload → Except MessageError (Message k)
  | .text content => ((Message.format k).parse content).mapError .json
  | .binary content =>
    match k.packed.parse content with
    | some values => .ok (.ofValues k values)
    | none => .error .binary

/-- The message of a kind that a payload writes, if its sender signed it. -/
def decodeSigned (k : Kind) (p : Payload) : Except MessageError (Message k) :=
  (p.decode k).bind fun m => (m.checkSender.map fun _ => m).mapError .auth

end Payload

end Beacon
