import Beacon.Json.Printer
import Beacon.Json.Reader
import Beacon.Signature.Basic
import Beacon.Text.Basic

/-
  Formats: how a type is written as JSON and read back. A record is an object
  with its fields in a fixed order. It is read from an object with its fields in
  any order, each at most once, among members that are passed over, or from an
  array of exactly its fields. Reading goes through a text from front to back and
  stops at the first error.
-/

namespace Beacon

/-- Why a text is not the JSON form of a value. Three refusals are worded by the
types themselves; all others, a text that is not JSON among them, are
`malformed`. -/
inductive ReadError where
  | malformed
  | invalidWord (text : String)
  | invalidAddress (text : String)
  | invalidSignature
  deriving DecidableEq

/-- The wording of a refusal, if the type that refused has one. The refused text is
part of it, and a position that this text ends in is not. -/
def ReadError.message? : ReadError → Option String
  | .malformed => none
  | .invalidWord text => some (Position.wording ("invalid bytes32: " ++ text))
  | .invalidAddress text => some (Position.wording (InvalidAddress.message ⟨text⟩))
  | .invalidSignature => some AuthError.invalidFormat.message

/-- How a type is written as JSON and read back. -/
structure Format (α : Type) where
  write : α → Json
  read : Json → Except ReadError α

namespace Format

variable {α β : Type}

def expect (r : Option α) : Except ReadError α :=
  match r with
  | some a => .ok a
  | none => .error .malformed

def print (f : Format α) (l : Json.Layout) (a : α) : String := Json.print l (f.write a)

/-- The value that a text writes, with nothing behind it. -/
def parse (f : Format α) (s : String) : Except ReadError α :=
  let d := Json.document s
  (f.read d.value).bind fun a => if d.ended then .ok a else .error .malformed

/-- A format carried over to another type. -/
def map (f : Format α) (back : β → α) (of : α → β) : Format β where
  write b := f.write (back b)
  read v := (f.read v).map of

/-! ## Scalars -/

def bool : Format Bool where
  write := .bool
  read
    | .bool b => .ok b
    | _ => .error .malformed

def text : Format String where
  write := .ofText
  read v := expect v.text?

/-- A natural number below `bound`. -/
def below (bound : Nat) : Format Nat where
  write := .ofNat
  read v := expect (v.natural?.filter (· < bound))

/-- A place in a list, below `2 ^ 64`. -/
def index : Format Nat := below UInt64.size

def uint64 : Format UInt64 := index.map UInt64.toNat UInt64.ofNat

def byte : Format UInt8 := (below 256).map UInt8.toNat UInt8.ofNat

/-- A word, as marked hexadecimal text. -/
def word : Format Word where
  write w := .ofText (Hex.marked w.bytes)
  read v := (text.read v).bind fun s =>
    match Hex.parseOctets 32 s with
    | some w => .ok w
    | none => .error (.invalidWord s)

def address : Format Address where
  write a := .ofText a.text
  read v := (text.read v).bind fun s => (Address.parse s).mapError fun e => .invalidAddress e.text

/-- A signature, as the marked hexadecimal text of its bytes. -/
def signature : Format Signature where
  write g := .ofText g.text
  read v := (text.read v).bind fun s =>
    (expect (Hex.parse s)).bind fun bs => (Signature.ofBytes bs).mapError fun _ => .invalidSignature

/-- A number of any size, as marked hexadecimal text without leading zeros. -/
def large : Format Nat where
  write n := .ofText (String.ofList ('0' :: 'x' :: Numeral.digits 16 n))
  read v := (text.read v).bind fun s => expect (Numeral.parseLarge 16 (Hex.unmarked s.toList))

/-- One of finitely many names, alone or as the key of a null member. -/
def name (all : List α) (nameOf : α → String) : Format α where
  write a := .ofText (nameOf a)
  read
    | .string lexeme => expect (find lexeme)
    | .object [(key, .null)] => expect (find key)
    | _ => .error .malformed
where
  find (lexeme : List Char) : Option α :=
    (Json.textOf? lexeme).bind fun s => all.find? fun a => nameOf a = s

/-! ## Containers -/

def optional (f : Format α) : Format (Option α) where
  write
    | none => .null
    | some a => f.write a
  read
    | .null => .ok none
    | v => (f.read v).map some

def list (f : Format α) : Format (List α) where
  write as := .array (as.map f.write)
  read
    | .array vs => vs.mapM f.read
    | _ => .error .malformed

def pair (f : Format α) (g : Format β) : Format (α × β) where
  write ab := .array [f.write ab.1, g.write ab.2]
  read
    | .array (v :: vs) => (f.read v).bind fun a =>
      match vs with
      | w :: ws => (g.read w).bind fun b => if ws.isEmpty then .ok (a, b) else .error .malformed
      | [] => .error .malformed
    | _ => .error .malformed

/-- A word, as an array of its bytes. -/
def wordBytes : Format Word where
  write w := (list byte).write w.bytes
  read v := ((list byte).read v).bind fun bs => expect (Octets.ofBytes? 32 bs)

end Format

/-! ## Records -/

/-- One value for each type. -/
abbrev Values : List Type → Type
  | [] => Unit
  | α :: αs => α × Values αs

/-- At most one value for each type. -/
abbrev Slots : List Type → Type
  | [] => Unit
  | α :: αs => Option α × Slots αs

/-- The fields of a record in their order: the name, the format, and the value
that stands for an absent field, if it may be absent. -/
inductive Fields : List Type → Type 1 where
  | nil : Fields []
  | cons {α : Type} {αs : List Type} (key : String) (format : Format α) (absent : Option α)
      (rest : Fields αs) : Fields (α :: αs)

namespace Fields

/-- A field that must be there, in front of others. -/
def need {α : Type} {αs : List Type} (key : String) (format : Format α) (rest : Fields αs) :
    Fields (α :: αs) := .cons key format none rest

/-- The members that hold the values. -/
def members : {αs : List Type} → Fields αs → Values αs → List (List Char × Json)
  | _, .nil, _ => []
  | _, .cons key format _ rest, (a, as) =>
    (Json.escape key.toList, format.write a) :: rest.members as

def empty : {αs : List Type} → Fields αs → Slots αs
  | _, .nil => ()
  | _, .cons _ _ _ rest => (none, rest.empty)

/-- Takes in one member. A field is taken once, and a member that is no field is
passed over if it is JSON. -/
def put : {αs : List Type} → Fields αs → Slots αs → String → Json → Except ReadError (Slots αs)
  | _, .nil, _, _, v => if v.intact then .ok () else .error .malformed
  | _, .cons key format _ rest, (slot, slots), k, v =>
    if k = key then
      if slot.isSome then .error .malformed
      else (format.read v).map fun a => (some a, slots)
    else (rest.put slots k v).map (slot, ·)

def putAll {αs : List Type} (fs : Fields αs) :
    Slots αs → List (List Char × Json) → Except ReadError (Slots αs)
  | slots, [] => .ok slots
  | slots, (key, v) :: ms =>
    match Json.textOf? key with
    | none => .error .malformed
    | some k => (fs.put slots k v).bind fun slots => putAll fs slots ms

/-- The values of all fields, absent ones included. -/
def fill : {αs : List Type} → Fields αs → Slots αs → Except ReadError (Values αs)
  | _, .nil, _ => .ok ()
  | _, .cons _ _ absent rest, (slot, slots) =>
    (Format.expect (slot.or absent)).bind fun a => (rest.fill slots).map (a, ·)

/-- The values of all fields from an array of them. -/
def ofItems : {αs : List Type} → Fields αs → List Json → Except ReadError (Values αs)
  | _, .nil, [] => .ok ()
  | _, .nil, _ :: _ => .error .malformed
  | _, .cons _ _ absent rest, [] =>
    (Format.expect absent).bind fun a => (rest.ofItems []).map (a, ·)
  | _, .cons _ format _ rest, v :: vs =>
    (format.read v).bind fun a => (rest.ofItems vs).map (a, ·)

/-- The values of all fields from an object or an array. -/
def read {αs : List Type} (fs : Fields αs) : Json → Except ReadError (Values αs)
  | .object ms => (fs.putAll fs.empty ms).bind fs.fill
  | .array vs => fs.ofItems vs
  | _ => .error .malformed

def record {αs : List Type} {ρ : Type} (fs : Fields αs) (values : ρ → Values αs) (of : Values αs → ρ) :
    Format ρ where
  write r := .object (fs.members (values r))
  read v := (fs.read v).map of

end Fields

end Beacon
