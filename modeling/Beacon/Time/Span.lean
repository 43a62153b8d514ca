import Beacon.Number.Binary64

/-
  Spans of time in whole nanoseconds. A span is shorter than `2 ^ 64` seconds;
  what would be longer has no span.
-/

namespace Beacon

structure Span where
  nanoseconds : Nat
  deriving DecidableEq

namespace Span

def perSecond : Nat := 1000000000

/-- What no span reaches. -/
def limit : Nat := UInt64.size * perSecond

/-- So many nanoseconds, if a span can be that long. -/
def ofNanoseconds? (n : Nat) : Option Span := if n < limit then some ⟨n⟩ else none

def ofSeconds (s : UInt64) : Span := ⟨s.toNat * perSecond⟩

def ofMilliseconds (ms : UInt64) : Span := ⟨ms.toNat * 1000000⟩

def seconds (d : Span) : Nat := d.nanoseconds / perSecond

/-- The nanoseconds beyond the whole seconds. -/
def subsecond (d : Span) : Nat := d.nanoseconds % perSecond

def milliseconds (d : Span) : Nat := d.nanoseconds / 1000000

def le (a b : Span) : Bool := a.nanoseconds ≤ b.nanoseconds

def add? (a b : Span) : Option Span := ofNanoseconds? (a.nanoseconds + b.nanoseconds)

def double? (a : Span) : Option Span := ofNanoseconds? (a.nanoseconds * 2)

/-- So many seconds and parts of one, to the nearest nanosecond. -/
def ofDyadic? (d : Dyadic) : Option Span :=
  if limit ≤ d.numerator / d.denominator * perSecond then none
  else some ⟨d.roundTimes perSecond⟩

/-- The time that so many steps take at a rate per second, computed in binary64; a
rate of zero counts as one. -/
def ofRate? (steps rate : UInt64) : Option Span :=
  ofDyadic? (Binary64.quotient steps.toNat (max rate.toNat 1))

end Span

end Beacon
