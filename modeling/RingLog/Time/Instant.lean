/-!
# Instants

A moment is the time since the epoch in nanoseconds. The log keeps time in whole seconds and
whole milliseconds, always rounded down.

Main statements: `Instant.seconds_ofSeconds` and `Instant.millisSince_addMillis`, both units are
read back as they were put in; `Instant.ofSeconds_seconds` and `Instant.addMillis_millisSince`, less
than one unit is lost.
-/

namespace RingLog

/-- A moment, counted from the epoch. -/
structure Instant where
  nanos : Nat
  deriving DecidableEq, Repr

namespace Instant

/-- Nanoseconds in a second. -/
def nanosPerSecond : Nat := 1000000000

/-- Nanoseconds in a millisecond. -/
def nanosPerMilli : Nat := 1000000

/-- The moment `seconds` and `nanos` after the epoch. -/
def ofSeconds (seconds : Nat) (nanos : Nat := 0) : Instant :=
  ⟨seconds * nanosPerSecond + nanos⟩

/-- Whole seconds since the epoch. -/
def seconds (instant : Instant) : Nat :=
  instant.nanos / nanosPerSecond

/-- Nanoseconds since the last whole second. -/
def subsecond (instant : Instant) : Nat :=
  instant.nanos % nanosPerSecond

/-- Whole milliseconds since an earlier moment, or zero if it is not earlier. -/
def millisSince (instant earlier : Instant) : Nat :=
  (instant.nanos - earlier.nanos) / nanosPerMilli

/-- The moment some milliseconds later. -/
def addMillis (instant : Instant) (millis : Nat) : Instant :=
  ⟨instant.nanos + millis * nanosPerMilli⟩

theorem seconds_ofSeconds (seconds : Nat) : (ofSeconds seconds).seconds = seconds := by
  simp only [Instant.seconds, ofSeconds, nanosPerSecond]
  omega

theorem millisSince_addMillis (instant : Instant) (millis : Nat) :
    (instant.addMillis millis).millisSince instant = millis := by
  simp only [millisSince, addMillis, nanosPerMilli]
  omega

theorem ofSeconds_seconds (instant : Instant) :
    (ofSeconds instant.seconds).nanos ≤ instant.nanos ∧
      instant.nanos < (ofSeconds instant.seconds).nanos + nanosPerSecond := by
  simp only [seconds, ofSeconds, nanosPerSecond]
  omega

theorem addMillis_millisSince {instant earlier : Instant} (h : earlier.nanos ≤ instant.nanos) :
    (earlier.addMillis (instant.millisSince earlier)).nanos ≤ instant.nanos ∧
      instant.nanos <
        (earlier.addMillis (instant.millisSince earlier)).nanos + nanosPerMilli := by
  simp only [millisSince, addMillis, nanosPerMilli]
  omega

end Instant

end RingLog
