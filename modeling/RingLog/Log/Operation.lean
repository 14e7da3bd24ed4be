import RingLog.Log.Maintenance

/-!
# Operations

Everything that changes an open log is one of four operations, carried out at a moment that the
caller reads off its clock. A run of a log is a list of operations with their moments.
-/

namespace RingLog

/-- Something to do to a log. -/
inductive Operation where
  | append (word : Word)
  | anchor
  | rotate
  | eraseAll
  deriving DecidableEq, Repr

namespace Operation

/-- Appends a record. -/
def record (record : Record) : Operation :=
  append record.encode

/-- Appends an occurrence of the catalogue. -/
def occurred (what : Occurrence) : Operation :=
  record (Record.ofOccurrence what)

/-- Appends a sample of a quantity of the catalogue. -/
def measured (quantity : Quantity) (sample : UInt16) : Operation :=
  record (Record.ofSample quantity sample)

end Operation

namespace Log

variable {g : Geometry}

/-- Carries out one operation. -/
def perform (log : Log g) (now : Instant) : Operation → Log g
  | .append word => log.append now word
  | .anchor => log.anchorTime now
  | .rotate => log.rotate now
  | .eraseAll => log.eraseAll now

/-- Carries out operations one after another. -/
def run (log : Log g) (operations : List (Instant × Operation)) : Log g :=
  operations.foldl (fun log operation => log.perform operation.1 operation.2) log

theorem run_append (log : Log g) (first second : List (Instant × Operation)) :
    log.run (first ++ second) = (log.run first).run second :=
  List.foldl_append

end Log

end RingLog
