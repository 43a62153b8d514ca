import Beacon.Text.Basic

/-
  JSON values. Numbers and strings are kept as the text wrote them, without the
  quotes of a string; whoever reads a value decodes them. A text that stops being
  JSON somewhere still has a value up to there: `broken` stands where it stops.
-/

namespace Beacon

/-- A JSON value; the members of an object are in the order of the text. -/
inductive Json where
  | null
  | bool (value : Bool)
  | number (lexeme : List Char)
  | string (lexeme : List Char)
  | array (items : List Json)
  | object (members : List (List Char × Json))
  | broken

namespace Json

/-- The member at which an object stops being JSON: neither its key nor its value
can be read. -/
def brokenMember : List Char × Json := (['\\'], .broken)

/-! ## Strings -/

def hex4 (n : Nat) : List Char :=
  [Hex.digit (n / 4096 % 16), Hex.digit (n / 256 % 16), Hex.digit (n / 16 % 16), Hex.digit (n % 16)]

/-- One character as a string holds it: quotes, backslashes and control
characters are escaped, all others stand for themselves. -/
def escapeChar (c : Char) : List Char :=
  if c = '"' then ['\\', '"']
  else if c = '\\' then ['\\', '\\']
  else if c = '\n' then ['\\', 'n']
  else if c = '\r' then ['\\', 'r']
  else if c = '\t' then ['\\', 't']
  else if c = '\x08' then ['\\', 'b']
  else if c = '\x0c' then ['\\', 'f']
  else if c.toNat < 32 then '\\' :: 'u' :: hex4 c.toNat
  else [c]

def escape (cs : List Char) : List Char := cs.flatMap escapeChar

/-- The number that four digits write. -/
def unit? (a b c d : Char) : Option Nat := Numeral.value? 16 [a, b, c, d]

/-- The character that a backslash and one letter stand for. -/
def shortEscape? (c : Char) : Option Char :=
  if c = '"' ∨ c = '\\' ∨ c = '/' then some c
  else if c = 'n' then some '\n'
  else if c = 'r' then some '\r'
  else if c = 't' then some '\t'
  else if c = 'b' then some '\x08'
  else if c = 'f' then some '\x0c'
  else none

def isHighUnit (n : Nat) : Bool := 0xd800 ≤ n && n ≤ 0xdbff

def isLowUnit (n : Nat) : Bool := 0xdc00 ≤ n && n ≤ 0xdfff

/-- The text of a lexeme; a backslash alone has none, nor has a code unit of a pair
without the other. -/
def unescape : List Char → Option (List Char)
  | [] => some []
  | ['\\'] => none
  | '\\' :: 'u' :: a :: b :: c :: d :: rest =>
    match unit? a b c d with
    | none => none
    | some n =>
      if isLowUnit n then none
      else if isHighUnit n then
        match rest with
        | '\\' :: 'u' :: e :: f :: g :: h :: rest =>
          match unit? e f g h with
          | none => none
          | some m =>
            if isLowUnit m then
              (unescape rest).map (Char.ofNat (0x10000 + (n - 0xd800) * 1024 + (m - 0xdc00)) :: ·)
            else none
        | _ => none
      else (unescape rest).map (Char.ofNat n :: ·)
  | '\\' :: c :: rest =>
    match shortEscape? c with
    | none => none
    | some x => (unescape rest).map (x :: ·)
  | c :: rest => (unescape rest).map (c :: ·)

def ofText (s : String) : Json := .string (escape s.toList)

def textOf? (lexeme : List Char) : Option String := (unescape lexeme).map String.ofList

def text? : Json → Option String
  | .string lexeme => textOf? lexeme
  | _ => none

/-! ## Numbers -/

def ofNat (n : Nat) : Json := .number (Numeral.decimal n)

/-- The natural number of a value that is written with digits alone. -/
def natural? : Json → Option Nat
  | .number lexeme => Numeral.value? 10 lexeme
  | _ => none

/-! ## Values that are passed over -/

mutual

/-- Whether the text was JSON to the end of the value. -/
def intact : Json → Bool
  | .array items => allIntact items
  | .object members => allMembersIntact members
  | .broken => false
  | _ => true

def allIntact : List Json → Bool
  | [] => true
  | v :: vs => intact v && allIntact vs

def allMembersIntact : List (List Char × Json) → Bool
  | [] => true
  | (_, v) :: ms => intact v && allMembersIntact ms

end

end Json

end Beacon
