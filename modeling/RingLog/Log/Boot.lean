import RingLog.Log.Append
import RingLog.Ring.Numbering

/-!
# Opening a log

A log is found again from the medium alone. An unformatted medium is formatted first. The active
page is where the run of sequence numbers ends, and writing resumes behind the records it holds;
a page that was erased but got no header before the power failed is given one now. The log then
records the time.
-/

namespace RingLog

namespace Log

variable {g : Geometry}

/-- Finds the page being written and the end of its records. -/
def recover (chip : Chip g) (config : Config) (accepted : config.fault? g = none) : Log g :=
  have pages_pos : 0 < g.pages := Nat.lt_of_lt_of_le Nat.two_pos (Config.two_le_pages accepted)
  let slot := chip.medium.activeSlot
  have slot_lt : slot < g.pages := chip.medium.activeSlot_lt pages_pos
  if chip.medium.isErased slot then
    let number := (Page.load chip.medium (g.previous slot)).number + 1
    let page : Page := ⟨slot, number, config.headerSize⟩
    { chip := page.initialise chip
      config
      page
      used := 0
      reference := ⟨0⟩
      outbox.notices := [.headerMissing slot]
      accepted
      slot_lt
      used_le := Nat.zero_le _ }
  else
    let page := Page.load chip.medium slot
    { chip
      config
      page
      used := (page.stored chip.medium).length
      reference := ⟨0⟩
      accepted
      slot_lt
      used_le := page.length_stored_le chip.medium }

/-- Recovers the log, says where, and records the time. -/
def resume (chip : Chip g) (config : Config) (accepted : config.fault? g = none)
    (now : Instant) : Log g :=
  let log := recover chip config accepted
  log.note (.resumed log.page.number log.page.slot log.used) |>.anchorTime now

/-- Opens the log on a chip, if the configuration fits it. -/
def boot (chip : Chip g) (config : Config) (now : Instant) : Except ConfigFault (Log g) :=
  match h : config.fault? g with
  | some fault => .error fault
  | none =>
    if chip.medium.isUnformatted then
      let log := resume (chip.format config.headerSize) config h now
      .ok { log with outbox.notices := .formatting g.pages :: log.outbox.notices }
    else .ok (resume chip config h now)

end Log

end RingLog
