import RingLog.Console.Report
import RingLog.Log.Operation

/-!
# Console commands

The console can print the log, mark a software reset in it, rotate its pages or erase it. The
reply to a command ends with a line that names the command by one letter.
-/

namespace RingLog

/-- What can be asked of the console. -/
inductive Command where
  | dump
  | softwareReset
  | forceRotation
  | eraseAll
  deriving DecidableEq, Repr

namespace Command

/-- The letter of the line that ends the reply. -/
def letter : Command → String
  | dump => "E"
  | softwareReset => "R"
  | forceRotation => "T"
  | eraseAll => "P"

/-- What the command does to the log. -/
def operation? : Command → Option Operation
  | dump => none
  | softwareReset => some (.occurred .softwareReset)
  | forceRotation => some .rotate
  | eraseAll => some .eraseAll

/-- The lines of the reply, given the log that the command found. -/
def reply {g : Geometry} (command : Command) (log : Log g) : List String :=
  let report := if command = dump then log.entries.map Entry.line else []
  report ++ [command.letter ++ ":"]

end Command

/-- The log after a command. -/
def Log.execute {g : Geometry} (log : Log g) (now : Instant) (command : Command) : Log g :=
  match command.operation? with
  | some operation => log.perform now operation
  | none => log

end RingLog
