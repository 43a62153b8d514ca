import Beacon.Json.Value

/-
  Reading JSON. Reading never fails: the value of any text is defined, with
  `broken` at the place where the text stops being JSON, and nothing is read
  behind that place. Only the four blanks of the standard are skipped, numbers
  and escapes have the standard's form, and control characters may not stand in
  strings.
-/

namespace Beacon.Json

def isSpace (c : Char) : Bool := c = ' ' || c = '\n' || c = '\r' || c = '\t'

def skipSpace (s : List Char) : List Char := s.dropWhile isSpace

def isDigit (c : Char) : Bool := '0' ≤ c && c ≤ '9'

def isHexDigit (c : Char) : Bool := (Hex.value? c).isSome

/-! ## Lexemes -/

/-- The digits the text starts with, if there are any. -/
def digits? (s : List Char) : Option (List Char) :=
  let ds := s.takeWhile isDigit
  if ds = [] then none else some ds

/-- The whole part of a number: a zero, or digits that do not start with one. -/
def wholePart? : List Char → Option (List Char)
  | '0' :: _ => some ['0']
  | s => digits? s

/-- The fraction of a number, empty if there is no point. -/
def fractionPart? : List Char → Option (List Char)
  | '.' :: s => (digits? s).map ('.' :: ·)
  | _ => some []

/-- The sign an exponent starts with, if it has one. -/
def exponentSign : List Char → List Char
  | '+' :: _ => ['+']
  | '-' :: _ => ['-']
  | _ => []

/-- The exponent of a number, empty if there is none. -/
def exponentPart? : List Char → Option (List Char)
  | c :: s =>
    if c = 'e' ∨ c = 'E' then
      let sign := exponentSign s
      (digits? (s.drop sign.length)).map fun ds => c :: sign ++ ds
    else some []
  | [] => some []

def numberLexeme? (s : List Char) : Option (List Char) := do
  let minus := if s.head? = some '-' then ['-'] else []
  let whole ← wholePart? (s.drop minus.length)
  let front := minus ++ whole
  let fraction ← fractionPart? (s.drop front.length)
  let front := front ++ fraction
  let exponent ← exponentPart? (s.drop front.length)
  return front ++ exponent

/-- The rest of a string up to its closing quote, behind the characters read so
far, latest first. -/
def stringLexeme? (acc : List Char) : List Char → Option (List Char)
  | [] => none
  | '"' :: _ => some acc.reverse
  | '\\' :: 'u' :: a :: b :: c :: d :: rest =>
    if isHexDigit a && isHexDigit b && isHexDigit c && isHexDigit d then
      stringLexeme? (d :: c :: b :: a :: 'u' :: '\\' :: acc) rest
    else none
  | '\\' :: c :: rest =>
    if (shortEscape? c).isSome then stringLexeme? (c :: '\\' :: acc) rest else none
  | '\\' :: [] => none
  | c :: rest => if c.toNat < 32 then none else stringLexeme? (c :: acc) rest

/-! ## Values -/

/-- A value written as one word. -/
def keyword (word : List Char) (v : Json) (s : List Char) : Json × List Char :=
  if word.isPrefixOf s then (v, s.drop word.length) else (.broken, [])

/-- A value written as one lexeme, or as a word. -/
def scalar (s : List Char) : Json × List Char :=
  match s with
  | '"' :: r =>
    match stringLexeme? [] r with
    | some lexeme => (.string lexeme, r.drop (lexeme.length + 1))
    | none => (.broken, [])
  | 'n' :: _ => keyword ['n', 'u', 'l', 'l'] .null s
  | 't' :: _ => keyword ['t', 'r', 'u', 'e'] (.bool true) s
  | 'f' :: _ => keyword ['f', 'a', 'l', 's', 'e'] (.bool false) s
  | _ =>
    match numberLexeme? s with
    | some lexeme => (.number lexeme, s.drop lexeme.length)
    | none => (.broken, [])

mutual

/-- The value the text starts with, and the text behind it. -/
def value : (steps : Nat) → List Char → Json × List Char
  | 0, _ => (.broken, [])
  | steps + 1, '[' :: r =>
    match skipSpace r with
    | ']' :: rest => (.array [], rest)
    | r => let (vs, rest) := items steps r; (.array vs, rest)
  | steps + 1, '{' :: r =>
    match skipSpace r with
    | '}' :: rest => (.object [], rest)
    | r => let (ms, rest) := members steps r; (.object ms, rest)
  | _ + 1, s => scalar s

/-- The values of an array from the next one on, to its closing bracket. -/
def items : (steps : Nat) → List Char → List Json × List Char
  | 0, _ => ([.broken], [])
  | steps + 1, s =>
    let (v, r) := value steps s
    match skipSpace r with
    | ',' :: r => let (vs, rest) := items steps (skipSpace r); (v :: vs, rest)
    | ']' :: rest => ([v], rest)
    | _ => ([v, .broken], [])

/-- The members of an object from the next one on, to its closing brace. -/
def members : (steps : Nat) → List Char → List (List Char × Json) × List Char
  | 0, _ => ([brokenMember], [])
  | steps + 1, s =>
    match scalar s with
    | (.string key, r) =>
      match skipSpace r with
      | ':' :: r =>
        let (v, r) := value steps (skipSpace r)
        match skipSpace r with
        | ',' :: r => let (ms, rest) := members steps (skipSpace r); ((key, v) :: ms, rest)
        | '}' :: rest => ([(key, v)], rest)
        | _ => ([(key, v), brokenMember], [])
      | _ => ([(key, .broken)], [])
    | _ => ([brokenMember], [])

end

/-- The value of a text, and whether nothing but blanks follows it. -/
structure Document where
  value : Json
  ended : Bool

/-- Reads a text. Every second step at least passes a character, so that twice as
many steps as characters are always enough. -/
def document (s : String) : Document :=
  let cs := s.toList
  let (v, rest) := value (2 * cs.length + 2) (skipSpace cs)
  { value := v, ended := skipSpace rest = [] }

end Beacon.Json
