import RingLog.Log.Append
import RingLog.Ring.Numbering

/-!
# Rotation and erasure

A rotation recycles the page behind the active one, which is the oldest, and goes on writing there
under the next sequence number. Erasing the log formats the whole ring. Both are slow, so they are
left to the log's owner; both leave a page that starts with an anchor.
-/

namespace RingLog

namespace Log

variable {g : Geometry}

/-- Recycles the oldest page and goes on writing there. -/
def rotate (log : Log g) (now : Instant) : Log g :=
  let page : Page := ⟨g.next log.page.slot, log.page.number + 1, log.config.headerSize⟩
  { log with
    chip := page.establish log.chip
    page
    used := 0
    rotationPending := false
    slot_lt := Geometry.next_lt log.pages_pos
    used_le := Nat.zero_le _ : Log g }
  |>.writeAnchor now
  |>.note (.rotated page.number page.slot)

/-- Erases all records and starts again in slot zero. -/
def eraseAll (log : Log g) (now : Instant) : Log g :=
  let chip := log.chip.format log.config.headerSize
  { log with
    chip
    page := Page.load chip.medium 0
    used := 0
    rotationPending := false
    dropped := 0
    slot_lt := log.pages_pos
    used_le := Nat.zero_le _ : Log g }
  |>.writeAnchor now
  |>.note .erased

end Log

end RingLog
