import RingLog.Ring.Page

/-!
# The numbering of the ring

Sequence numbers rise by one from slot to slot, except behind the active page: its successor is
the oldest page or a half-erased one, and only there does the run break (`Medium.activeSlot`).

A fresh ring is numbered so that the run ends at slot zero (`Page.initial`): slot zero has number
zero and the slots above it lead up to it through the highest numbers.

Main statement: `Medium.activeSlot_lt`, on a medium with pages the active slot is one of them.
-/

namespace RingLog

variable {g : Geometry}

/-- The page that formatting writes into a slot. -/
def Page.initial (g : Geometry) (headerSize : UInt8) (slot : Nat) : Page :=
  ⟨slot, if slot = 0 then 0 else UInt16.ofNat slot - UInt16.ofNat g.pages, headerSize⟩

/-- Erases every page and writes the headers of a fresh ring. -/
def Chip.format (chip : Chip g) (headerSize : UInt8) : Chip g :=
  (List.range g.pages).foldl (fun chip slot => (Page.initial g headerSize slot).establish chip)
    chip

namespace Medium

/-- True when the first slot has no header, as on a medium never used. -/
def isUnformatted (medium : Medium g) : Bool :=
  medium.read 0 Header.offset == Word.erased

/-- True when the page behind the slot carries the next sequence number. -/
def continuesAt (medium : Medium g) (slot : Nat) : Bool :=
  (Page.load medium slot).number + 1 == (Page.load medium (slot + 1)).number

/-- The slot where the run of sequence numbers first breaks, or the last slot if it does not. -/
def activeSlot (medium : Medium g) : Nat :=
  ((List.range (g.pages - 1)).find? fun slot => !medium.continuesAt slot).getD (g.pages - 1)

theorem activeSlot_lt (medium : Medium g) (h : 0 < g.pages) : medium.activeSlot < g.pages := by
  unfold activeSlot
  match hfind : (List.range (g.pages - 1)).find? fun slot => !medium.continuesAt slot with
  | none => simp; omega
  | some slot =>
    have := List.mem_range.mp (List.mem_of_find?_eq_some hfind)
    simp; omega

end Medium

end RingLog
