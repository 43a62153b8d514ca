import Beacon.Json.Value

/-
  Writing JSON in two layouts: without any blank, or with every item and member
  on a line of its own, two blanks deeper than what holds it. An empty array or
  object is two brackets in both layouts.
-/

namespace Beacon.Json

inductive Layout where
  | compact
  | pretty
  deriving DecidableEq

/-- The start of a line at a depth. -/
def Layout.line : Layout → (depth : Nat) → List Char
  | .compact, _ => []
  | .pretty, depth => '\n' :: List.replicate (2 * depth) ' '

/-- What stands between a key and its value. -/
def Layout.colon : Layout → List Char
  | .compact => [':']
  | .pretty => [':', ' ']

mutual

def render (l : Layout) (depth : Nat) : Json → List Char
  | .null => ['n', 'u', 'l', 'l']
  | .bool true => ['t', 'r', 'u', 'e']
  | .bool false => ['f', 'a', 'l', 's', 'e']
  | .number lexeme => lexeme
  | .string lexeme => '"' :: (lexeme ++ ['"'])
  | .array [] => ['[', ']']
  | .array (v :: vs) =>
    '[' :: (l.line (depth + 1) ++ render l (depth + 1) v ++ renderItems l (depth + 1) vs ++
      l.line depth ++ [']'])
  | .object [] => ['{', '}']
  | .object ((key, v) :: ms) =>
    '{' :: (l.line (depth + 1) ++ renderMember l (depth + 1) key v ++
      renderMembers l (depth + 1) ms ++ l.line depth ++ ['}'])
  | .broken => []

def renderMember (l : Layout) (depth : Nat) (key : List Char) (v : Json) : List Char :=
  '"' :: (key ++ '"' :: (l.colon ++ render l depth v))

/-- The values after the first, each behind a comma. -/
def renderItems (l : Layout) (depth : Nat) : List Json → List Char
  | [] => []
  | v :: vs => ',' :: (l.line depth ++ render l depth v ++ renderItems l depth vs)

/-- The members after the first, each behind a comma. -/
def renderMembers (l : Layout) (depth : Nat) : List (List Char × Json) → List Char
  | [] => []
  | (key, v) :: ms =>
    ',' :: (l.line depth ++ renderMember l depth key v ++ renderMembers l depth ms)

end

def print (l : Layout) (v : Json) : String := String.ofList (render l 0 v)

end Beacon.Json
