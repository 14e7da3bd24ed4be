import RingLog.Log.Config
import RingLog.Log.Notice
import RingLog.Ring.Cursor
import RingLog.Time.Instant

/-!
# The log

A log is kept on a chip. It writes to one page of the ring at a time, knows how many records that
page holds, and dates records by the time that has passed since its reference. When the page runs
low the log asks its owner for a rotation, once per page; requests and notices wait in the outbox
until the owner collects them (`Log.collect`).

The conditions in the type hold of every log: its configuration fits the medium, its page lies on
the ring, and the page holds no more records than it has room for.
-/

namespace RingLog

/-- What a log has to say to its owner. -/
structure Outbox where
  /-- How often a rotation was asked for. -/
  rotationRequests : Nat := 0
  notices : List Notice := []
  deriving DecidableEq, Repr

/-- An open log. -/
structure Log (g : Geometry) where
  chip : Chip g
  config : Config
  /-- The page being written. -/
  page : Page
  /-- Records on that page. -/
  used : Nat
  /-- The moment up to which the records written so far account for the time. -/
  reference : Instant
  /-- Whether a rotation of the page was asked for. -/
  rotationPending : Bool := false
  /-- Records lost because the page was full. -/
  dropped : Nat := 0
  outbox : Outbox := {}
  accepted : config.fault? g = none
  slot_lt : page.slot < g.pages
  used_le : used ≤ page.capacity g

namespace Log

variable {g : Geometry}

/-- The place where the next record will be written. -/
def frontier (log : Log g) : Cursor :=
  ⟨log.page, log.used⟩

/-- The contents of the chip. -/
abbrev medium (log : Log g) : Medium g := log.chip.medium

/-- Adds a notice to the outbox. -/
def note (log : Log g) (notice : Notice) : Log g :=
  { log with outbox.notices := log.outbox.notices ++ [notice] }

/-- The outbox, and the log with an empty one. -/
def collect (log : Log g) : Outbox × Log g :=
  (log.outbox, { log with outbox := {} })

theorem fits (log : Log g) : log.config.Fits g :=
  log.accepted

theorem pages_pos (log : Log g) : 0 < g.pages :=
  Nat.lt_of_le_of_lt (Nat.zero_le _) log.slot_lt

end Log

end RingLog
