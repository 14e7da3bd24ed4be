import RingLog.Ring.Page

/-!
# Cursors

A cursor marks a record by page and index. It holds no part of the medium, so a reader can keep
one while the log grows and move it on later, always towards a second cursor: the frontier, where
the next record will be written.

A cursor that finds no record left on its page rolls over to the next pages until it stands at a
record or on the frontier's page (`Cursor.settle`). On the frontier's page it takes over the
frontier's view of the page, so the walk ends at a position comparable with the frontier even if
older headers are stale.

Main statement: `Cursor.advance_of_reached`, a cursor never moves beyond the frontier.
-/

namespace RingLog

/-- A place in the log. -/
structure Cursor where
  page : Page
  index : Nat
  deriving DecidableEq, Repr

namespace Cursor

variable {g : Geometry}

/-- The word under the cursor, or the erased word beyond the page. -/
def value (medium : Medium g) (cursor : Cursor) : Word :=
  cursor.page.read medium cursor.index

/-- The position of the record under the cursor. -/
def position (g : Geometry) (cursor : Cursor) : Position :=
  cursor.page.position g cursor.index

/-- Two cursors agree when they stand at the same position, whatever slots their pages lie in. -/
def agrees (g : Geometry) (cursor other : Cursor) : Bool :=
  cursor.position g == other.position g

/-- True once the cursor stands at or past the frontier, in the frontier's slot. -/
def reached (cursor frontier : Cursor) : Bool :=
  cursor.page.slot == frontier.page.slot && frontier.index ≤ cursor.index

/-- True when the cursor's page is older than the other's. Sequence numbers wrap, so the answer
holds for pages less than 2^15 apart. -/
def isBehind (cursor other : Cursor) : Bool :=
  let lag := other.page.number - cursor.page.number
  lag != 0 && lag < 0x8000

/-- The cursor at the first record of the next page, in the frontier's view if that is the
frontier's page. -/
def turnPage (medium : Medium g) (cursor frontier : Cursor) : Cursor :=
  let page := cursor.page.next medium
  ⟨if page.slot = frontier.page.slot then frontier.page else page, 0⟩

/-- Turns up to `hops` pages, until a record is under the cursor. -/
def settleWithin (medium : Medium g) (frontier : Cursor) : Nat → Cursor → Cursor
  | 0, cursor => cursor
  | hops + 1, cursor =>
    if cursor.value medium = Word.erased then
      settleWithin medium frontier hops (cursor.turnPage medium frontier)
    else cursor

/-- Rolls the cursor over exhausted pages, as far as the frontier's page. -/
def settle (medium : Medium g) (cursor frontier : Cursor) : Cursor :=
  settleWithin medium frontier (g.distance cursor.page.slot frontier.page.slot) cursor

/-- Moves the cursor to the next record, or leaves it if there is none. -/
def advance (medium : Medium g) (cursor frontier : Cursor) : Cursor :=
  if cursor.reached frontier then cursor
  else settle medium { cursor with index := cursor.index + 1 } frontier

/-- The entry under the cursor. -/
def entry (medium : Medium g) (cursor : Cursor) : Entry :=
  ⟨cursor.position g, cursor.value medium⟩

theorem advance_of_reached {medium : Medium g} {cursor frontier : Cursor}
    (h : cursor.reached frontier) : cursor.advance medium frontier = cursor :=
  if_pos h

end Cursor

end RingLog
