import Beacon.Json.Format
import Beacon.Text.Basic
import Beacon.Time.Instant

/-
  Instants as text after RFC 3339. Writing gives UTC with a `Z`, as many fraction
  digits as needed in groups of three, and a sign for years outside of four
  digits. Reading takes any offset below a day, a letter of either case or a
  blank between date and time, and blanks between the parts.
-/

namespace Beacon.Rfc3339

/-! ## Writing -/

/-- The digits of a number, filled up with zeros to a width. -/
def padded (width n : Nat) : List Char :=
  let ds := Numeral.decimal n
  List.replicate (width - ds.length) '0' ++ ds

/-- A year: four digits, and a sign in front of any year that needs one. -/
def year (y : Int) : List Char :=
  if 0 ≤ y ∧ y ≤ 9999 then padded 4 y.toNat
  else (if y < 0 then '-' else '+') :: padded 4 y.natAbs

/-- The fraction of a second: none, or three, six or nine digits. -/
def fraction (nanos : Nat) : List Char :=
  if nanos = 0 then []
  else if nanos % 1000000 = 0 then '.' :: padded 3 (nanos / 1000000)
  else if nanos % 1000 = 0 then '.' :: padded 6 (nanos / 1000)
  else '.' :: padded 9 nanos

def text (i : Instant) : List Char :=
  let leap := i.time.nanosecond / 1000000000
  year i.date.year ++ '-' :: (padded 2 i.date.month ++ '-' :: (padded 2 i.date.day ++
    'T' :: (padded 2 i.time.hour ++ ':' :: (padded 2 i.time.minute ++
      ':' :: (padded 2 (i.time.second + leap) ++
        (fraction (i.time.nanosecond % 1000000000) ++ ['Z']))))))

/-! ## Reading -/

/-- One to `most` digits at the front, and the text behind them. -/
def number? (most : Nat) (s : List Char) : Option (Nat × List Char) :=
  let ds := (s.take most).takeWhile Json.isDigit
  (Numeral.value? 10 ds).map fun n => (n, s.drop ds.length)

/-- A number of at most two digits behind blanks. -/
def part? (s : List Char) : Option (Nat × List Char) := number? 2 (Text.trimStart s)

/-- A year behind blanks: at most four digits, or any number of them behind a
sign. -/
def year? (s : List Char) : Option (Int × List Char) :=
  match Text.trimStart s with
  | '-' :: r => (number? r.length r).map fun (n, r) => (-Int.ofNat n, r)
  | '+' :: r => (number? r.length r).map fun (n, r) => (Int.ofNat n, r)
  | r => (number? 4 r).map fun (n, r) => (Int.ofNat n, r)

/-- The text behind a mark and the blanks in front of it. -/
def mark? (c : Char) (s : List Char) : Option (List Char) :=
  match Text.trimStart s with
  | d :: r => if d = c then some r else none
  | [] => none

/-- The nanoseconds of a fraction: nine digits count, further ones are passed
over. -/
def fraction? : List Char → Option (Nat × List Char)
  | '.' :: s =>
    let ds := (s.take 9).takeWhile Json.isDigit
    (Numeral.value? 10 ds).map fun n =>
      (n * Nat.pow 10 (9 - ds.length), (s.drop ds.length).dropWhile Json.isDigit)
  | s => some (0, s)

def twoDigits? : List Char → Option (Nat × List Char)
  | a :: b :: r => (Numeral.value? 10 [a, b]).map (·, r)
  | _ => none

/-- Whether an offset has the sign minus. -/
def signOf? (c : Char) : Option Bool :=
  if c = '+' then some false else if c = '-' ∨ c = '−' then some true else none

/-- The offset of a zone in minutes, less than a day. -/
def zone? : List Char → Option (Int × List Char)
  | 'Z' :: r => some (0, r)
  | 'z' :: r => some (0, r)
  | u :: t :: c :: r =>
    if u.toLower = 'u' ∧ t.toLower = 't' ∧ c.toLower = 'c' then some (0, r)
    else do
      let minus ← signOf? u
      let (hours, r) ← twoDigits? (t :: c :: r)
      let (minutes, r) ← twoDigits? (r.dropWhile fun c => c = ':' || Text.isBlank c)
      let offset := 60 * hours + minutes
      if 59 < minutes ∨ 1440 ≤ offset then none
      else some (if minus then -Int.ofNat offset else Int.ofNat offset, r)
  | _ => none

/-- The text behind what stands between date and time. -/
def between? : List Char → Option (List Char)
  | c :: r => if c = 'T' ∨ c = 't' ∨ c = ' ' then some r else none
  | [] => none

def parse (cs : List Char) : Option Instant := do
  let (year, r) ← year? cs
  let (month, r) ← part? (← mark? '-' r)
  let (day, r) ← part? (← mark? '-' r)
  let (hour, r) ← part? (← between? r)
  let (minute, r) ← part? (← mark? ':' r)
  let (second, r) ← part? (← mark? ':' r)
  let (nanos, r) ← fraction? r
  let (offset, r) ← zone? (Text.trimStart r)
  if Text.trimStart r ≠ [] then none
  else
    let leap := second = 60
    Instant.ofLocal { year, month, day }
      { hour, minute
        second := if leap then 59 else second
        nanosecond := if leap then nanos + 1000000000 else nanos }
      offset

end Beacon.Rfc3339

namespace Beacon.Format

def instant : Format Instant where
  write i := .ofText (String.ofList (Rfc3339.text i))
  read v := (text.read v).bind fun s => expect (Rfc3339.parse s.toList)

end Beacon.Format
