import Beacon.Signature.Basic
import Beacon.Text.Hex

/-
  Packed values: the binary form of messages. A number takes eight bytes, least
  significant first. A text is the number of its bytes in UTF-8 and the bytes, a
  list the number of its items and the items. Words, addresses and signatures
  travel as the texts they have in JSON.
-/

namespace Beacon

/-- How a type is packed into bytes and taken from the front of them. -/
structure Packed (α : Type) where
  put : α → Bytes
  take : Bytes → Option (α × Bytes)

namespace Packed

variable {α β : Type}

def uint64 : Packed UInt64 where
  put x := littleEndian 8 x.toNat
  take bs :=
    let own := bs.take 8
    if own.length < 8 then none else some (UInt64.ofNat (ofLittleEndian own), bs.drop 8)

/-- The bytes of a text, if they are UTF-8. -/
def ofUtf8? (bs : Bytes) : Option String := String.fromUTF8? ⟨bs.toArray⟩

def text : Packed String where
  put s := uint64.put (UInt64.ofNat (utf8 s).length) ++ utf8 s
  take bs := do
    let (n, bs) ← uint64.take bs
    let own := bs.take n.toNat
    if own.length < n.toNat then none else return (← ofUtf8? own, bs.drop n.toNat)

/-- A value that travels as a text. -/
def asText (write : α → String) (read : String → Option α) : Packed α where
  put a := text.put (write a)
  take bs := (text.take bs).bind fun (s, bs) => (read s).map (·, bs)

def word : Packed Word := asText (fun w => Hex.marked w.bytes) (Hex.parseOctets 32)

def address : Packed Address := asText Address.text fun s => (Address.parse s).toOption

def signature : Packed Signature :=
  asText Signature.text fun s => (Hex.parse s).bind fun bs => (Signature.ofBytes bs).toOption

/-- Takes so many items. Every item takes a byte at least, so that there are no more
items than bytes. -/
def takeItems (p : Packed α) : (count : Nat) → Bytes → Option (List α × Bytes)
  | 0, bs => some ([], bs)
  | n + 1, bs => do
    let (a, bs) ← p.take bs
    let (as, bs) ← takeItems p n bs
    return (a :: as, bs)

def list (p : Packed α) : Packed (List α) where
  put as := uint64.put (UInt64.ofNat as.length) ++ as.flatMap p.put
  take bs := do
    let (n, bs) ← uint64.take bs
    if bs.length < n.toNat then none else takeItems p n.toNat bs

def unit : Packed Unit where
  put _ := []
  take bs := some ((), bs)

/-- A value in front of others. -/
def and (p : Packed α) (q : Packed β) : Packed (α × β) where
  put ab := p.put ab.1 ++ q.put ab.2
  take bs := do
    let (a, bs) ← p.take bs
    let (b, bs) ← q.take bs
    return ((a, b), bs)

/-- The value that bytes start with; bytes behind it are passed over. -/
def parse (p : Packed α) (bs : Bytes) : Option α := (p.take bs).map (·.1)

end Packed

end Beacon
