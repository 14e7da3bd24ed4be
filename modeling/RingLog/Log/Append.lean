import RingLog.Format.Record
import RingLog.Log.Basic

/-!
# Appending

A record goes into the next free slot of the page being written; on a full page it is dropped and
counted. An append first accounts for the time since the reference: by a record of the elapsed
milliseconds if there are any, or by a new anchor if they do not fit such a record. It then asks
for a rotation if no more than the reserve is left.

Appending never erases, and never writes to another page. Its test of fullness adds sizes that
stay within 64 bits (`Log.isNearlyFull?_eq_some`), so it is taken as a test on numbers.
-/

namespace RingLog

namespace Log

variable {g : Geometry}

/-- The count of dropped records stops here. -/
def maxDropped : Nat := 0xffffffff

/-- Writes one word behind the records of the page, or drops it. -/
def push (log : Log g) (word : Word) : Log g :=
  if h : log.used < log.page.capacity g then
    { log with
      chip := log.page.write log.chip log.used word
      used := log.used + 1
      used_le := h }
  else { log with dropped := min (log.dropped + 1) maxDropped }

/-- Records the absolute time, in whole seconds. -/
def writeAnchor (log : Log g) (now : Instant) : Log g :=
  { log with reference := Instant.ofSeconds now.seconds }.push
    (Record.anchor (UInt32.ofNat now.seconds)).encode

/-- Accounts for the time since the reference. -/
def writeElapsed (log : Log g) (now : Instant) : Log g :=
  let elapsed := now.millisSince log.reference
  if Record.maxElapsed < elapsed then log.writeAnchor now
  else if elapsed = 0 then log
  else
    { log with reference := log.reference.addMillis elapsed }.push
      (Record.elapsed (UInt32.ofNat elapsed)).encode

/-- Asks for a rotation when the page is nearly full, unless that was done before. -/
def requestRotation (log : Log g) : Log g :=
  if !log.rotationPending && log.page.isNearlyFull g log.used log.config.reserve then
    { log with
      rotationPending := true
      outbox.rotationRequests := log.outbox.rotationRequests + 1 }
  else log

/-- The test of fullness adds sizes that an accepted configuration bounds, so no log is ended by
it. -/
theorem isNearlyFull?_eq_some (log : Log g) :
    log.page.isNearlyFull? g log.used log.config.reserve =
      some (log.page.isNearlyFull g log.used log.config.reserve) := by
  refine if_pos ?_
  obtain ⟨-, -, hsize, hneeded⟩ := Config.requirements_of_accepted log.accepted
  have hheader := log.page.headerSize.toNat_lt
  have hused := log.used_le
  rw [Page.capacity] at hused
  rw [Config.maxPageSize] at hsize
  rw [Config.needed] at hneeded
  rw [UInt64.size]
  omega

/-- Appends a word, dated at `now`. -/
def append (log : Log g) (now : Instant) (word : Word) : Log g :=
  ((log.writeElapsed now).push word).requestRotation

/-- Records the absolute time, as after the clock was set. -/
def anchorTime (log : Log g) (now : Instant) : Log g :=
  (log.writeAnchor now).requestRotation

end Log

end RingLog
