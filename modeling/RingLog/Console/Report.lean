import RingLog.Format.Wording
import RingLog.Log.Reading

/-!
# The console's report of the log

The console prints an entry as `E: <position>,<word>`, with the position in decimal and the word in
hexadecimal (`Entry.line`). It can print the log in one go or, so as not to flood a slow link, one
entry per call through a `Session`, which survives appends in between.
-/

namespace RingLog

namespace Entry

/-- What the word of the entry says. -/
def decoded (entry : Entry) : Decoded :=
  Record.decode entry.word

/-- The entry as the console prints it. -/
def line (entry : Entry) : String :=
  "E: " ++ entry.position.text ++ "," ++ Word.hex entry.word

/-- The line of the entry, and what its word says. -/
def explained (entry : Entry) : String :=
  entry.line ++ "  " ++ entry.decoded.text

end Entry

/-- A report in progress: where it goes on. -/
structure Session where
  cursor : Cursor
  deriving DecidableEq, Repr

namespace Session

variable {g : Geometry}

/-- A report that begins with the oldest record. -/
def start (log : Log g) : Session :=
  ⟨log.oldest⟩

/-- The next entry, or `none` once the report has caught up with the log; the session that goes
on from there; and what is to be told the operator. -/
def next (session : Session) (log : Log g) : Option Entry × Session × List Notice :=
  let step := log.step session.cursor
  (step.found, ⟨step.cursor⟩, step.notices)

end Session

end RingLog
