import Beacon.Address
import Beacon.Digest.Keccak

/-
  Recoverable signatures. A signature is two words `r` and `s` and one bit, and
  the signer's address follows from it and the digest alone. Its 65 bytes are `r`,
  `s` and a last byte 0 or 1; 27 and 28 are read as 0 and 1.
-/

namespace Beacon

/-- A signature from which the signer can be recovered; `odd` tells which of two
points `r` stands for. -/
structure Signature where
  r : Word
  s : Word
  odd : Bool
  deriving DecidableEq

inductive AuthError where
  | invalidKey
  | invalidFormat
  | signing (reason : String)
  | recoveryFailed
  | signerMismatch (claimed recovered : Address)
  deriving DecidableEq

def AuthError.message : AuthError → String
  | .invalidKey => "invalid private key"
  | .invalidFormat => "invalid signature format"
  | .signing reason => "signing failed: " ++ reason
  | .recoveryFailed => "signature recovery failed"
  | .signerMismatch claimed recovered =>
    "signer mismatch: claimed " ++ claimed.text ++ ", recovered " ++ recovered.text

def AuthError.code : AuthError → String
  | .invalidKey => "InvalidKey"
  | .invalidFormat => "InvalidFormat"
  | .signing _ => "Signing"
  | .recoveryFailed => "RecoveryFailed"
  | .signerMismatch _ _ => "SignerMismatch"

namespace Signature

/-- The signature of a message that is not signed yet: zero bytes only. -/
def blank : Signature := ⟨Word.zero, Word.zero, false⟩

def bytes (g : Signature) : Bytes := g.r.bytes ++ g.s.bytes ++ [if g.odd then 1 else 0]

/-- The bit that the last byte stands for. -/
def parity? (v : UInt8) : Option Bool :=
  if v = 0 ∨ v = 27 then some false
  else if v = 1 ∨ v = 28 then some true
  else none

def ofBytes (bs : Bytes) : Except AuthError Signature :=
  match Octets.ofBytes? 32 (bs.take 32), Octets.ofBytes? 32 ((bs.drop 32).take 32), bs.drop 64 with
  | some r, some s, [v] =>
    match parity? v with
    | some odd => .ok { r, s, odd }
    | none => .error .invalidFormat
  | _, _, _ => .error .invalidFormat

def text (g : Signature) : String := Hex.marked g.bytes

/-- The signature as shown in diagnostics: its first eight bytes. -/
def shown (g : Signature) : String := "Signature(" ++ Hex.marked (g.bytes.take 8) ++ "…)"

end Signature

end Beacon
