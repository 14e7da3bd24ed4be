import RingLog.Format.Position
import RingLog.Format.Word

/-!
# Notices

What the log and the tasks around it tell the operator, and how it is worded. A notice is either
for information or a warning.
-/

namespace RingLog

/-- How much a notice matters. -/
inductive Level where
  | info
  | warn
  deriving DecidableEq, Repr

/-- The tag that opens the line of a notice. -/
def Level.tag : Level → String
  | info => "INFO"
  | warn => "WARN"

/-- Something worth telling the operator. -/
inductive Notice where
  /-- The medium holds no log yet. -/
  | formatting (pages : Nat)
  /-- Power was lost between erasing a page and writing its header. -/
  | headerMissing (slot : Nat)
  | resumed (number : UInt16) (slot index : Nat)
  | rotated (number : UInt16) (slot : Nat)
  | erased
  | corruptWord (word : Word) (position : Position)
  /-- The page under a reader was recycled. -/
  | readerLapped (stood resumes : Position)
  | taskStarted
  | taskStopping
  | channelClosed
  | simulationStarting
  | summary (number : UInt16) (slot dropped : Nat)
  deriving DecidableEq, Repr

namespace Notice

/-- How much the notice matters. -/
def level : Notice → Level
  | headerMissing _ | erased | corruptWord _ _ | readerLapped _ _ | channelClosed => .warn
  | _ => .info

/-- The number and slot of a page, as notices give them. -/
def pageText (number : UInt16) (slot : Nat) : String :=
  "page #" ++ toString number.toNat ++ " (slot " ++ toString slot ++ ")"

/-- The wording of the notice. -/
def text : Notice → String
  | formatting pages =>
    "Event log storage is blank, formatting " ++ toString pages ++ " pages"
  | headerMissing slot =>
    "Active event log page in slot " ++ toString slot ++ " has no header"
  | resumed number slot index =>
    "Event log resumed on " ++ pageText number slot ++ " at record " ++ toString index
  | rotated number slot => "Event log rotated to " ++ pageText number slot
  | erased => "Event log erased"
  | corruptWord word position =>
    "Corrupt event log word " ++ Word.hex word ++ " at position " ++ position.text
  | readerLapped stood resumes =>
    "Event log reader lapped at position " ++ stood.text ++ ", resuming at " ++ resumes.text
  | taskStarted => "System task started"
  | taskStopping => "System task stopping"
  | channelClosed => "System channel closed - exiting system task"
  | simulationStarting => "PlastiWatch V2 host simulation starting"
  | summary number slot dropped =>
    "Active " ++ pageText number slot ++ ", " ++ toString dropped ++ " records dropped"

/-- The notice as one line. -/
def line (notice : Notice) : String :=
  notice.level.tag ++ " " ++ notice.text

end Notice

end RingLog
