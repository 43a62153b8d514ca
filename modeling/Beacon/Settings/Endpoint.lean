import Beacon.Text.Basic

/-
  Endpoints: an internet address and a port. Text is `1.2.3.4:80` or `[::1]:80`,
  the latter with a numeric scope behind a percent sign if it has one. An address
  of the newer kind is written with lower-case groups, the first of the longest
  runs of at least two zero groups left out, and the older kind inside of it in
  its own form.
-/

namespace Beacon

/-- An internet address of either kind. -/
inductive Host where
  | v4 (octets : Octets 4)
  | v6 (octets : Octets 16) (scope : UInt32)
  deriving DecidableEq

structure Endpoint where
  host : Host
  port : UInt16
  deriving DecidableEq

namespace Endpoint

/-! ## Writing -/

/-- Texts behind each other with a separator between them. -/
def separated (separator : Char) : List (List Char) → List Char
  | [] => []
  | [cs] => cs
  | cs :: rest => cs ++ separator :: separated separator rest

/-- The four numbers of an older address. -/
def v4Text (octets : Bytes) : List Char :=
  separated '.' (octets.map fun b => Numeral.decimal b.toNat)

/-- The eight groups of a newer address. -/
def groups : Bytes → List Nat
  | a :: b :: rest => (256 * a.toNat + b.toNat) :: groups rest
  | _ => []

def groupText (gs : List Nat) : List Char := separated ':' (gs.map (Numeral.digits 16))

/-- How many zero groups a list starts with. -/
def zeroRun (gs : List Nat) : Nat := (gs.takeWhile (· = 0)).length

/-- The place and length of the first of the longest runs of zero groups. -/
def longestRun (gs : List Nat) : Nat × Nat :=
  let runs := (List.range gs.length).map fun i => (i, zeroRun (gs.drop i))
  runs.foldl (fun best run => if best.2 < run.2 then run else best) (0, 0)

def v6Text (octets : Bytes) : List Char :=
  match groups octets with
  | [0, 0, 0, 0, 0, 0xffff, _, _] =>
    ':' :: ':' :: 'f' :: 'f' :: 'f' :: 'f' :: ':' :: v4Text (octets.drop 12)
  | gs =>
    let (start, length) := longestRun gs
    if 1 < length then groupText (gs.take start) ++ ':' :: ':' :: groupText (gs.drop (start + length))
    else groupText gs

/-- The text of a scope: none for zero. -/
def scopeText (scope : UInt32) : List Char :=
  if scope = 0 then [] else '%' :: Numeral.decimal scope.toNat

/-- The text of an address in front of a port. -/
def hostText : Host → List Char
  | .v4 octets => v4Text octets.bytes
  | .v6 octets scope => '[' :: (v6Text octets.bytes ++ scopeText scope ++ [']'])

def text (e : Endpoint) : String :=
  String.ofList (hostText e.host ++ ':' :: Numeral.decimal e.port.toNat)

/-! ## Reading -/

/-- The text behind a character. -/
def past? (c : Char) : List Char → Option (List Char)
  | d :: r => if d = c then some r else none
  | [] => none

/-- The number of all digits at the front, below `bound`, with the text behind
them. -/
def number? (base bound : Nat) (s : List Char) : Option (Nat × List Char) :=
  let ds := s.takeWhile fun c => (Numeral.digitIn? base c).isSome
  (Numeral.value? base ds).bind fun n => if n < bound then some (n, s.drop ds.length) else none

/-- One number of an older address: no zero in front of other digits. -/
def octet? (s : List Char) : Option (Nat × List Char) :=
  match s with
  | '0' :: c :: _ => if (Numeral.digitIn? 10 c).isSome then none else number? 10 256 s
  | _ => number? 10 256 s

/-- One group of a newer address: at most four digits. -/
def group? (s : List Char) : Option (Nat × List Char) :=
  let ds := s.takeWhile fun c => (Hex.value? c).isSome
  if 4 < ds.length then none else number? 16 65536 s

def v4? (s : List Char) : Option (Nat × List Char) := do
  let (a, s) ← octet? s
  let (b, s) ← octet? (← past? '.' s)
  let (c, s) ← octet? (← past? '.' s)
  let (d, s) ← octet? (← past? '.' s)
  return (((a * 256 + b) * 256 + c) * 256 + d, s)

structure Groups where
  values : List Nat
  embedded : Bool
  rest : List Char

/-- Reads at most so many groups with colons between them; the last two may be an
older address. -/
def groups? : (most : Nat) → (first : Bool) → List Char → Groups
  | 0, _, s => ⟨[], false, s⟩
  | left + 1, first, s =>
    match if first then some s else past? ':' s with
    | none => ⟨[], false, s⟩
    | some r =>
      match if left = 0 then none else v4? r with
      | some (n, rest) => ⟨[n / 65536, n % 65536], true, rest⟩
      | none =>
        match group? r with
        | none => ⟨[], false, s⟩
        | some (g, r) =>
          let more := groups? left false r
          ⟨g :: more.values, more.embedded, more.rest⟩

def v6? (s : List Char) : Option (List Nat × List Char) := do
  let head := groups? 8 true s
  if head.values.length = 8 then return (head.values, head.rest)
  if head.embedded then none
  let r ← past? ':' head.rest
  let r ← past? ':' r
  let tail := groups? (7 - head.values.length) true r
  let zeros := List.replicate (8 - head.values.length - tail.values.length) 0
  return (head.values ++ zeros ++ tail.values, tail.rest)

/-- The scope behind a percent sign; zero if there is none. -/
def scope (s : List Char) : Nat × List Char :=
  ((past? '%' s).bind (number? 10 UInt32.size)).getD (0, s)

/-- An older address in front of a port. -/
def v4Host? (s : List Char) : Option (Host × List Char) :=
  (v4? s).map fun (n, r) => (.v4 (Octets.ofNat 4 n), r)

/-- A newer address in brackets in front of a port. -/
def v6Host? (s : List Char) : Option (Host × List Char) := do
  let (gs, r) ← v6? (← past? '[' s)
  let (scope, r) := scope r
  let octets := Octets.ofNat 16 (gs.foldl (fun n g => n * 65536 + g) 0)
  return (.v6 octets (UInt32.ofNat scope), ← past? ']' r)

/-- A host with the port behind it, and nothing else. -/
def withPort? : Host × List Char → Option Endpoint
  | (host, r) => do
    let (port, rest) ← number? 10 65536 (← past? ':' r)
    if rest = [] then some { host, port := UInt16.ofNat port } else none

def parse (s : String) : Option Endpoint :=
  ((v4Host? s.toList).bind withPort?).or ((v6Host? s.toList).bind withPort?)

end Endpoint

end Beacon
