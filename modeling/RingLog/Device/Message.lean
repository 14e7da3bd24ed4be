import RingLog.Log.Operation

/-!
# Messages and the mailbox

The tasks of a device talk to the system task through messages, and so does the log when it needs
a rotation. Each message but the last one stands for an operation on the log. A mailbox keeps
messages in the order of sending; what is sent after it was closed is lost.
-/

namespace RingLog

/-- A message to the system task. -/
inductive Message where
  | rotatePages
  /-- The charger started or stopped. -/
  | chargingChanged (charging : Bool)
  | batteryMillivolts (millivolts : UInt16)
  | bleConnected
  | bleDisconnected
  | dfuStarted
  | dfuFinished
  | stepCount (steps : UInt16)
  /-- The clock was set. -/
  | timeSynced
  | shutdown
  deriving DecidableEq, Repr

/-- What the message asks of the log; `none` when it asks the task to stop. -/
def Message.operation? : Message → Option Operation
  | rotatePages => some .rotate
  | chargingChanged true => some (.occurred .chargeStart)
  | chargingChanged false => some (.occurred .chargeStop)
  | batteryMillivolts millivolts => some (.measured .batteryVoltage millivolts)
  | bleConnected => some (.occurred .bleConnect)
  | bleDisconnected => some (.occurred .bleDisconnect)
  | dfuStarted => some (.occurred .dfuStart)
  | dfuFinished => some (.occurred .dfuStop)
  | stepCount steps => some (.measured .steps steps)
  | timeSynced => some .anchor
  | shutdown => none

/-- Messages on their way, the oldest first. -/
structure Mailbox where
  queue : List Message := []
  isOpen : Bool := true
  deriving DecidableEq, Repr

namespace Mailbox

/-- Puts a message behind the others, unless the mailbox is closed. -/
def send (mailbox : Mailbox) (message : Message) : Mailbox :=
  if mailbox.isOpen then { mailbox with queue := mailbox.queue ++ [message] } else mailbox

/-- Sends messages one after another. -/
def sendAll (mailbox : Mailbox) (messages : List Message) : Mailbox :=
  messages.foldl send mailbox

/-- Closes the mailbox. What is in it stays. -/
def close (mailbox : Mailbox) : Mailbox :=
  { mailbox with isOpen := false }

/-- All messages, and the mailbox without them. -/
def takeAll (mailbox : Mailbox) : List Message × Mailbox :=
  (mailbox.queue, { mailbox with queue := [] })

theorem sendAll_of_open (queue messages : List Message) :
    sendAll ⟨queue, true⟩ messages = ⟨queue ++ messages, true⟩ := by
  induction messages generalizing queue with
  | nil => simp [sendAll]
  | cons message messages ih =>
    simpa [sendAll, send] using ih (queue ++ [message])

end Mailbox

end RingLog
