import Beacon.Digest.Sha256
import Beacon.Signature.Basic
import Beacon.Signature.Curve
import Beacon.Text.Basic

/-
  Signing and recovery. Signing a digest is deterministic: the one-time number is
  drawn from the key and the digest by a chain of keyed digests, and of the two
  signatures that then fit, the one with the lower `s` is given. Recovery finds
  the one key under which a signature fits a digest; a signature with the higher
  `s` is refused.
-/

namespace Beacon

/-- A private key: a number below the order of the group, and not zero. -/
structure Signer where
  key : Nat
  pos : 0 < key
  lt : key < Curve.order

namespace Signature

/-- The address of a public key given by its coordinates: the last twenty bytes of
the digest of both. -/
def addressOf (point : Nat × Nat) : Address :=
  ⟨(keccak256 (bigEndian 32 point.1 ++ bigEndian 32 point.2)).last 20 (by decide)⟩

/-- Whether `s` is in the upper half of the range. -/
def isHigh (s : Nat) : Bool := Curve.order / 2 < s

/-- The address under whose key a signature fits a digest. -/
def recover (message : Word) (g : Signature) : Except AuthError Address :=
  let r := g.r.toNat
  let s := g.s.toNat
  if r = 0 ∨ Curve.order ≤ r ∨ s = 0 ∨ Curve.order ≤ s then .error .invalidFormat
  else if isHigh s then .error .recoveryFailed
  else match Curve.lift? r g.odd with
    | none => .error .recoveryFailed
    | some point =>
      let rInverse := Curve.inverse Curve.order r
      let z := message.toNat % Curve.order
      let forBase := (Curve.order - rInverse * z % Curve.order) % Curve.order
      let forPoint := rInverse * s % Curve.order
      match Curve.coordinates? (Curve.combine forBase Curve.generator forPoint point) with
      | none => .error .recoveryFailed
      | some key => .ok (addressOf key)

/-- Checks that a digest was signed by the claimed address. -/
def checkSigner (message : Word) (g : Signature) (claimed : Address) : Except AuthError Unit :=
  (recover message g).bind fun recovered =>
    if recovered = claimed then .ok () else .error (.signerMismatch claimed recovered)

end Signature

/-! ## One-time numbers -/

namespace Nonce

/-- The state of the chain of keyed digests. -/
structure Chain where
  k : Word
  v : Word

/-- The chain after taking in more bytes behind a mark. -/
def Chain.absorb (c : Chain) (mark : UInt8) (more : Bytes) : Chain :=
  let k := hmac256 c.k.bytes (c.v.bytes ++ mark :: more)
  { k, v := hmac256 k.bytes c.v.bytes }

def Chain.start (key message : Word) : Chain :=
  let more := key.bytes ++ message.bytes
  let c : Chain := { k := Word.zero, v := ⟨List.replicate 32 1, by simp⟩ }
  (c.absorb 0 more).absorb 1 more

/-- The first number of the chain that is below the order and not zero, if one of
the next `tries` is. -/
def Chain.draw? (c : Chain) : (tries : Nat) → Option Nat
  | 0 => none
  | tries + 1 =>
    let v := hmac256 c.k.bytes c.v.bytes
    if 0 < v.toNat ∧ v.toNat < Curve.order then some v.toNat
    else ({ c with v } : Chain).absorb 0 [] |>.draw? tries

end Nonce

namespace Signer

def ofNat? (key : Nat) : Option Signer :=
  if h : 0 < key ∧ key < Curve.order then some ⟨key, h.1, h.2⟩ else none

/-- The private key a text writes: 24 to 32 bytes of hexadecimal digits between
blanks, behind any number of marks. -/
def parse (s : String) : Except AuthError Signer :=
  match Hex.decode (Hex.unmarked (Text.trim s.toList)) with
  | none => .error .invalidKey
  | some bs =>
    if bs.length < 24 ∨ 32 < bs.length then .error .invalidKey
    else match ofNat? (ofBigEndian bs) with
      | some signer => .ok signer
      | none => .error .invalidKey

/-- The private key as 64 digits. -/
def secretText (signer : Signer) : String := Hex.plain (bigEndian 32 signer.key)

def address (signer : Signer) : Address :=
  match Curve.coordinates? (Curve.times signer.key Curve.generator) with
  | some point => Signature.addressOf point
  | none => ⟨Octets.zero 20⟩

/-- The signer as shown in diagnostics: its address alone. -/
def shown (signer : Signer) : String :=
  "Signer \x7b address: " ++ signer.address.shown ++ " \x7d"

/-- The signature of a digest with a one-time number. -/
def signWith (signer : Signer) (message : Word) (k : Nat) : Option Signature :=
  match Curve.coordinates? (Curve.times k Curve.generator) with
  | none => none
  | some (x, y) =>
    let r := x % Curve.order
    let z := message.toNat % Curve.order
    let s := Curve.inverse Curve.order k * (z + r * signer.key) % Curve.order
    if r = 0 ∨ s = 0 then none
    else
      let high := Signature.isHigh s
      some
        { r := Octets.ofNat 32 r
          s := Octets.ofNat 32 (if high then Curve.order - s else s)
          odd := (y % 2 = 1) != high }

def tries : Nat := 64

def sign (signer : Signer) (message : Word) : Except AuthError Signature :=
  match (Nonce.Chain.start (Octets.ofNat 32 signer.key) message).draw? tries with
  | none => .error (.signing "no one-time number")
  | some k =>
    match signWith signer message k with
    | none => .error (.signing "unusable one-time number")
    | some g => .ok g

end Signer

end Beacon
