import Beacon.Text.Hex

/-
  Addresses: the twenty bytes that name an operator or a leader. Text is `0x` and
  forty lower-case digits; reading takes either case behind any number of marks.
  Addresses are ordered by their bytes, first byte first.
-/

namespace Beacon

/-- The name of an operator or a leader. -/
structure Address where
  octets : Octets 20
  deriving DecidableEq

structure InvalidAddress where
  text : String
  deriving DecidableEq

def InvalidAddress.message (e : InvalidAddress) : String := "invalid address: " ++ e.text

namespace Address

def text (a : Address) : String := Hex.marked a.octets.bytes

/-- The address with its type named, as shown in diagnostics. -/
def shown (a : Address) : String := "Address(" ++ a.text ++ ")"

/-- The first four bytes as text. -/
def short (a : Address) : String := Hex.marked (a.octets.bytes.take 4)

/-- The address extended to a word by zeros on the left. -/
def word (a : Address) : Word := (Octets.zero 12).append a.octets

def parse (s : String) : Except InvalidAddress Address :=
  match Hex.parseOctets 20 s with
  | some octets => .ok ⟨octets⟩
  | none => .error ⟨s⟩

def rank (a : Address) : Nat := a.octets.toNat

def le (a b : Address) : Bool := a.rank ≤ b.rank

def sort (as : List Address) : List Address := as.mergeSort le

end Address

end Beacon
