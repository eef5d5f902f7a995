/-
  CaptureRing.Duration — spans of time in whole nanoseconds.

  A span holds fewer than 2^64 seconds. One made from a binary floating-point number of
  seconds is rounded to the nearest nanosecond, a tie to the even one; a number from
  2^64 on has no span.
-/

import CaptureRing.Number.Dyadic

namespace CaptureRing

def nanosPerSecond : Nat := 1000000000

structure Duration where
  nanos : Nat
  nanos_lt : nanos < 2 ^ 64 * nanosPerSecond
  deriving DecidableEq, Repr

namespace Duration

def zero : Duration := ⟨0, by decide⟩

def second : Duration := ⟨nanosPerSecond, by decide⟩

def secs (d : Duration) : UInt64 := UInt64.ofNat (d.nanos / nanosPerSecond)

def subsecNanos (d : Duration) : UInt32 := UInt32.ofNat (d.nanos % nanosPerSecond)

def ofNanos? (n : Nat) : Option Duration :=
  if h : n < 2 ^ 64 * nanosPerSecond then some ⟨n, h⟩ else none

/-- Seconds and nanoseconds; a second or more in the nanoseconds is carried. -/
def ofParts? (secs : UInt64) (nanos : UInt32) : Option Duration :=
  ofNanos? (secs.toNat * nanosPerSecond + nanos.toNat)

def ofSeconds? (d : Dyadic) : Option Duration :=
  if d.floor < 2 ^ 64 then ofNanos? (roundHalfEven (d.num * nanosPerSecond) d.den) else none

end Duration

end CaptureRing
