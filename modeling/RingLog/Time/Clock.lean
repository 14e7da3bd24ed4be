import RingLog.Time.Instant

/-!
# A hand-driven clock

The clock is a 64-bit counter of nanoseconds that moves only when it is told to. It keeps the full
resolution, so that steps shorter than a millisecond add up, and it wraps after 2^64 nanoseconds.
-/

namespace RingLog

/-- A counter of nanoseconds since the epoch. -/
structure Clock where
  nanos : UInt64 := 0
  deriving DecidableEq, Repr

namespace Clock

/-- Nanoseconds after which the counter starts over. -/
def period : Nat := 0x10000000000000000

/-- A clock that shows the given moment. -/
def startingAt (start : Instant) : Clock :=
  ⟨UInt64.ofNat start.nanos⟩

/-- The moment the clock shows. -/
def now (clock : Clock) : Instant :=
  ⟨clock.nanos.toNat⟩

/-- Moves the clock on by the time from the epoch to `span`. -/
def advance (clock : Clock) (span : Instant) : Clock :=
  ⟨clock.nanos + UInt64.ofNat span.nanos⟩

theorem now_startingAt (start : Instant) :
    (startingAt start).now = ⟨start.nanos % period⟩ := rfl

theorem now_advance (clock : Clock) (span : Instant) :
    (clock.advance span).now = ⟨(clock.now.nanos + span.nanos) % period⟩ := by
  simp [now, advance, period, UInt64.toNat_add]

end Clock

end RingLog
