/-
  Instants: a date of the Gregorian calendar and a time of day in UTC, down to
  nanoseconds. A leap second counts as a further second of nanoseconds behind the
  last second of a minute.
-/

namespace Beacon

namespace Calendar

/-- Whether a year has a 29th of February. -/
def isLeap (year : Int) : Bool := year % 4 = 0 && (year % 100 ≠ 0 || year % 400 = 0)

def daysIn (year : Int) (month : Nat) : Nat :=
  if month = 2 then (if isLeap year then 29 else 28)
  else if month = 4 ∨ month = 6 ∨ month = 9 ∨ month = 11 then 30
  else 31

def firstYear : Int := -262143

def lastYear : Int := 262142

/-- A day of a year. -/
structure Date where
  year : Int
  month : Nat
  day : Nat
  deriving DecidableEq

/-- Whether a date is in the calendar. -/
def Date.Valid (d : Date) : Prop :=
  firstYear ≤ d.year ∧ d.year ≤ lastYear ∧ 1 ≤ d.month ∧ d.month ≤ 12 ∧
    1 ≤ d.day ∧ d.day ≤ daysIn d.year d.month

instance (d : Date) : Decidable d.Valid := by unfold Date.Valid; infer_instance

def Date.next (d : Date) : Date :=
  if d.day < daysIn d.year d.month then { d with day := d.day + 1 }
  else if d.month < 12 then { d with month := d.month + 1, day := 1 }
  else { year := d.year + 1, month := 1, day := 1 }

def Date.previous (d : Date) : Date :=
  if 1 < d.day then { d with day := d.day - 1 }
  else if 1 < d.month then
    { d with month := d.month - 1, day := daysIn d.year (d.month - 1) }
  else { year := d.year - 1, month := 12, day := 31 }

/-- The day as many days later as a number says, which is -1, 0 or 1. -/
def Date.shift (d : Date) (days : Int) : Date :=
  if days < 0 then d.previous else if 0 < days then d.next else d

end Calendar

/-- A time of day; `nanosecond` is below two billion, and a leap second has a
billion or more behind second 59. -/
structure TimeOfDay where
  hour : Nat
  minute : Nat
  second : Nat
  nanosecond : Nat
  deriving DecidableEq

def TimeOfDay.Valid (t : TimeOfDay) : Prop :=
  t.hour < 24 ∧ t.minute < 60 ∧ t.second < 60 ∧ t.nanosecond < 2000000000 ∧
    (1000000000 ≤ t.nanosecond → t.second = 59)

instance (t : TimeOfDay) : Decidable t.Valid := by unfold TimeOfDay.Valid; infer_instance

/-- A moment in UTC. -/
structure Instant where
  date : Calendar.Date
  time : TimeOfDay
  date_valid : date.Valid
  time_valid : time.Valid
  deriving DecidableEq

/-- The moment at a date and time, if both exist. -/
def Instant.check (date : Calendar.Date) (time : TimeOfDay) : Option Instant :=
  if h : date.Valid ∧ time.Valid then some ⟨date, time, h.1, h.2⟩ else none

/-- The moment in UTC at which a clock that is `offset` minutes ahead shows the
date and time. -/
def Instant.ofLocal (date : Calendar.Date) (time : TimeOfDay) (offset : Int) : Option Instant :=
  if date.Valid ∧ time.Valid then
    let minutes := (60 * time.hour + time.minute : Int) - offset
    let ofDay := (minutes % 1440).toNat
    Instant.check (date.shift (minutes / 1440))
      { time with hour := ofDay / 60, minute := ofDay % 60 }
  else none

end Beacon
