import RingLog.Format.Record
import RingLog.Log.Basic

/-!
# Reading

The entries of a log are the records of its pages in ring order, from the page behind the active
one, which is the oldest, up to the active page itself (`Log.entries`). Older pages end at their
first erased word, the active page at the frontier.

A reader that wants one entry at a time keeps a cursor (`Log.step`), across appends and rotations.
Where its page has been recycled meanwhile, it resumes at the oldest surviving record.
-/

namespace RingLog

/-- What a reader gets for one step. -/
structure Step where
  /-- The entry read; `none` at the frontier. -/
  found : Option Entry
  /-- Where the reader goes on. -/
  cursor : Cursor
  notices : List Notice

namespace Log

variable {g : Geometry}

/-- The page behind the active one on the ring. -/
def oldestPage (log : Log g) : Page :=
  Page.load log.medium (g.next log.page.slot)

/-- The place of the oldest surviving record. -/
def oldest (log : Log g) : Cursor :=
  Cursor.settle log.medium ⟨log.oldestPage, 0⟩ log.frontier

/-- All pages but the active one, the oldest first. -/
def olderPages (log : Log g) : List Page :=
  Page.walk log.medium (g.pages - 1) log.oldestPage

/-- The words on the active page. -/
def activeWords (log : Log g) : List Word :=
  (log.page.words log.medium).take log.used

/-- Every stored word with its position, in the order of writing. -/
def entries (log : Log g) : List Entry :=
  log.olderPages.flatMap (fun page => page.entries g (page.stored log.medium)) ++
    log.page.entries g log.activeWords

/-- The records among the entries. -/
def records (log : Log g) : List (Position × Record) :=
  log.entries.filterMap fun entry =>
    (Record.decode entry.word).record?.map fun record => (entry.position, record)

/-- A warning for each entry that stands for no record. -/
def corruptions (log : Log g) : List Notice :=
  log.entries.filterMap fun entry =>
    match Record.decode entry.word with
    | .invalid word => some (.corruptWord word entry.position)
    | .absent | .valid _ => none

/-- Reads the entry under a cursor and moves the cursor on. -/
def step (log : Log g) (cursor : Cursor) : Step :=
  let oldest := log.oldest
  let lapped := cursor.isBehind oldest
  let here := Cursor.settle log.medium (if lapped then oldest else cursor) log.frontier
  let notices :=
    if lapped then [.readerLapped (cursor.position g) (oldest.position g)] else []
  if here.reached log.frontier then ⟨none, here, notices⟩
  else ⟨some (here.entry log.medium), here.advance log.medium log.frontier, notices⟩

end Log

end RingLog
