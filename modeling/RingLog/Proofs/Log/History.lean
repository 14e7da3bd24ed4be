import RingLog.Log.Config
import RingLog.Proofs.Log.Device

/-!
# Histories

A history is what a log should remember, without a medium and its slots: a list of leaves, each
with a number, a header size and words. Words are added to the last leaf while there is room on it.
A rotation adds a leaf and forgets the oldest one if there are then more leaves than pages.

Main statement: `Leaf.addAll_eq`, of the words added one by one those are kept that fit.
-/

namespace RingLog

/-- A page of a history. -/
structure Leaf where
  number : UInt16
  headerSize : UInt8
  words : List Word
  deriving DecidableEq, Repr

namespace Leaf

/-- Adds a word if there is room for it. -/
def add (g : Geometry) (leaf : Leaf) (word : Word) : Leaf :=
  if leaf.words.length < g.pageSize - leaf.headerSize.toNat then
    { leaf with words := leaf.words ++ [word] }
  else leaf

/-- Adds words one by one. -/
def addAll (g : Geometry) (leaf : Leaf) (words : List Word) : Leaf :=
  words.foldl (add g) leaf

/-- The words with their positions. -/
def entries (g : Geometry) (leaf : Leaf) : List (Nat × Word) :=
  leaf.words.mapIdx fun index word => (leaf.number.toNat * g.pageSize + index, word)

/-- How many words there is room for. -/
def room (g : Geometry) (leaf : Leaf) : Nat :=
  g.pageSize - leaf.headerSize.toNat - leaf.words.length

theorem addAll_eq (g : Geometry) (leaf : Leaf) (words : List Word) :
    leaf.addAll g words = { leaf with words := leaf.words ++ words.take (leaf.room g) } := by
  induction words generalizing leaf with
  | nil => simp [addAll]
  | cons word rest ih =>
    rw [addAll, List.foldl_cons, ← addAll, ih, add]
    split
    · rename_i hroom
      have hcount : leaf.room g = room g { leaf with words := leaf.words ++ [word] } + 1 := by
        simp only [room, List.length_append, List.length_singleton]
        omega
      rw [hcount, List.take_succ_cons]
      simp
    · rename_i hfull
      have hcount : leaf.room g = 0 := by
        rw [room]
        omega
      simp [hcount]

end Leaf

/-- The leaves of a log, and what it goes on with. -/
structure History where
  last : Leaf
  /-- The leaves before the last one, the newest first. -/
  earlier : List Leaf
  /-- The header size of leaves to come. -/
  headerSize : UInt8
  /-- The moment up to which the words account for the time. -/
  reference : Instant
  deriving DecidableEq, Repr

namespace History

/-- All leaves, the newest first. -/
def leaves (history : History) : List Leaf :=
  history.last :: history.earlier

/-- All words with their positions, in the order of writing. -/
def entries (g : Geometry) (history : History) : List (Nat × Word) :=
  history.leaves.reverse.flatMap (Leaf.entries g)

/-- A new history with one leaf, which holds an anchor. -/
def start (headerSize : UInt8) (now : Instant) : History where
  last := ⟨0, headerSize, [anchorWord now]⟩
  earlier := []
  headerSize
  reference := .ofSeconds now.seconds

/-- Adds words to the last leaf, which account for the time up to `reference`. -/
def write (g : Geometry) (history : History) (words : List Word) (reference : Instant) : History :=
  { history with last := history.last.addAll g words, reference }

/-- Adds an anchor. -/
def anchor (g : Geometry) (history : History) (now : Instant) : History :=
  history.write g [anchorWord now] (.ofSeconds now.seconds)

/-- Adds a word behind a record of the time since the reference, if at least a millisecond has
passed. A time too long for such a record is recorded by an anchor. -/
def append (g : Geometry) (history : History) (now : Instant) (word : Word) : History :=
  let elapsed := now.millisSince history.reference
  if elapsed = 0 then history.write g [word] history.reference
  else if elapsed ≤ Record.maxElapsed then
    history.write g [(Record.elapsed (UInt32.ofNat elapsed)).encode, word]
      (history.reference.addMillis elapsed)
  else history.write g [anchorWord now, word] (.ofSeconds now.seconds)

/-- Goes on with a new leaf, which holds an anchor, and keeps no more leaves than pages. -/
def rotate (g : Geometry) (history : History) (now : Instant) : History :=
  { history with
    last := ⟨history.last.number + 1, history.headerSize, [anchorWord now]⟩
    earlier := history.leaves.take (g.pages - 1)
    reference := .ofSeconds now.seconds }

/-- Opens the log again, perhaps with another header size for leaves to come. -/
def reopen (g : Geometry) (history : History) (config : Config) (now : Instant) : History :=
  { history.anchor g now with headerSize := config.headerSize }

/-- What an action makes of a history. -/
def act (g : Geometry) (history : History) : Action → History
  | .boot config now => history.reopen g config now
  | .perform now (.append word) => history.append g now word
  | .perform now .anchor => history.anchor g now
  | .perform now .rotate => history.rotate g now
  | .perform now .eraseAll => start history.headerSize now

/-- What actions make of a history, one after another. -/
def actAll (g : Geometry) (history : History) (actions : List Action) : History :=
  actions.foldl (act g) history

end History

end RingLog
