import RingLog.Device.Message
import RingLog.Log.Boot
import RingLog.Log.Reading

/-!
# The station around the log

The tasks of a device share one log behind a lock, and the log's requests for a rotation go into a
mailbox. The system task takes messages one at a time and carries out what they ask for; a crash
handler marks a software reset if it can do so without waiting for the lock.

A task that crashes while it holds the lock leaves it abandoned. The log is consistent between any
two words, so an abandoned lock is as good as a free one.

Main statement: `Station.crash_holding_lock`, a crash under the lock leaves no mark in the log.
-/

namespace RingLog

/-- Who has the log to itself. -/
inductive Lock where
  | free
  | held
  /-- The last holder crashed. -/
  | abandoned
  deriving DecidableEq, Repr

/-- A log shared between tasks. -/
structure Station (g : Geometry) where
  log : Log g
  lock : Lock := .free
  /-- Where the log's requests go. -/
  mailbox : Mailbox := {}
  /-- What was told the operator. -/
  notices : List Notice := []

namespace Station

variable {g : Geometry}

/-- Tells the operator something. -/
def tell (station : Station g) (notices : List Notice) : Station g :=
  { station with notices := station.notices ++ notices }

/-- Empties the log's outbox: requests go to the mailbox and notices to the operator. -/
def deliver (station : Station g) : Station g :=
  let ⟨log, lock, mailbox, notices⟩ := station
  let (outbox, log) := log.collect
  ⟨log, lock, mailbox.sendAll (List.replicate outbox.rotationRequests .rotatePages),
    notices ++ outbox.notices⟩

/-- Shares a log that was just opened. -/
def share (log : Log g) : Station g :=
  deliver { log }

/-! ## Operations and messages -/

/-- Carries out an operation on the log. -/
def perform (station : Station g) (now : Instant) (operation : Operation) : Station g :=
  let ⟨log, lock, mailbox, notices⟩ := station
  deliver ⟨log.perform now operation, lock, mailbox, notices⟩

/-- Carries out what a message asks for. -/
def handle (station : Station g) (now : Instant) (message : Message) : Station g :=
  match message.operation? with
  | some operation => station.perform now operation
  | none => station

/-- Handles messages one after another. -/
def handleAll (station : Station g) (now : Instant) (messages : List Message) : Station g :=
  messages.foldl (fun station message => station.handle now message) station

/-- Puts a message into the mailbox. -/
def post (station : Station g) (message : Message) : Station g :=
  { station with mailbox := station.mailbox.send message }

/-- Takes the oldest message out of the mailbox and handles it. -/
def receive (station : Station g) (now : Instant) : Option (Message × Station g) :=
  match station.mailbox.queue with
  | [] => none
  | message :: rest => some (message, { station with mailbox.queue := rest }.handle now message)

/-- Receives up to `count` messages: those handled, and the station behind the last one. -/
def receiveMany (now : Instant) : Nat → Station g → List Message × Station g
  | 0, station => ([], station)
  | count + 1, station =>
    match station.receive now with
    | none => ([], station)
    | some (message, station) =>
      let (messages, station) := receiveMany now count station
      (message :: messages, station)

/-! ## The system task -/

/-- The system task at work on the messages of its channel, each at its own moment, until one asks
it to stop or the channel turns out to be closed. -/
def serveAll : List (Instant × Message) → Station g → Station g
  | [], station => station.tell [.channelClosed]
  | (now, message) :: rest, station =>
    match message.operation? with
    | some operation => serveAll rest (station.perform now operation)
    | none => station.tell [.taskStopping]

/-- Runs the system task on a channel. -/
def serve (station : Station g) (channel : List (Instant × Message)) : Station g :=
  serveAll channel (station.tell [.taskStarted])

/-! ## Mail and notices -/

/-- Takes all messages out of the mailbox. -/
def takeMail (station : Station g) : List Message × Station g :=
  let (messages, mailbox) := station.mailbox.takeAll
  (messages, { station with mailbox })

/-- Takes all notices. -/
def takeNotices (station : Station g) : List Notice × Station g :=
  (station.notices, { station with notices := [] })

/-! ## The lock and crashes -/

/-- Records an occurrence without waiting: not at all while the lock is held. Says whether the log
was reached. -/
def tryRecord (station : Station g) (now : Instant) (what : Occurrence) : Bool × Station g :=
  if station.lock = .held then (false, station) else (true, station.perform now (.occurred what))

/-- Takes the lock. -/
def acquire (station : Station g) : Station g :=
  { station with lock := .held }

/-- Gives the lock back. -/
def release (station : Station g) : Station g :=
  { station with lock := .free }

/-- Leaves the lock behind in a crash. -/
def abandon (station : Station g) : Station g :=
  { station with lock := .abandoned }

/-- A crash of some task, which may hold the lock. The crash handler runs before the lock is left
behind. -/
def crash (station : Station g) (now : Instant) (holdsLock : Bool) : Station g :=
  if holdsLock then (station.acquire.tryRecord now .softwareReset).2.abandon
  else (station.tryRecord now .softwareReset).2

/-! ## Switching on -/

/-- Opens the log again on the same chip, as after a reset: the lock is free and the mailbox new. -/
def reboot (station : Station g) (config : Config) (now : Instant) :
    Except ConfigFault (Station g) := do
  let log ← Log.boot station.log.chip config now
  return deliver { log, notices := station.notices }

/-- Opens the log of a device that was just switched on and records the start. -/
def powerUp (chip : Chip g) (now : Instant) : Except ConfigFault (Station g) := do
  let log ← Log.boot chip {} now
  return (share log).perform now (.occurred .coldStart)

theorem crash_holding_lock (station : Station g) (now : Instant) :
    (station.crash now true).log = station.log := rfl

end Station

end RingLog
