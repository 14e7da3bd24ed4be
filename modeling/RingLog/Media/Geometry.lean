/-!
# Geometry of a medium

A medium is an array of `pages` equally large pages that are erased one at a time, each of
`pageSize` words. Its words lie one page after the other, in slot order.

Main statements: `Geometry.index_lt` and `Geometry.index_inj`, the words of a geometry have
different indices, all inside the medium; `Geometry.distance_next`, a walk along the ring comes one
step closer to its target with every slot.
-/

namespace RingLog

/-- The extent of a medium. -/
structure Geometry where
  pages : Nat
  /-- Words on each page. -/
  pageSize : Nat
  deriving DecidableEq, Repr

namespace Geometry

/-- The ring that a device keeps in its flash memory, one sector a page. -/
def flash : Geometry := ⟨3, 1024⟩

/-- The ring that a simulated device keeps in working memory. -/
def ram : Geometry := ⟨3, 256⟩

/-- Words on all pages together. -/
abbrev size (g : Geometry) : Nat := g.pages * g.pageSize

/-- True of the slots and offsets that name a word of the medium. -/
def Contains (g : Geometry) (slot offset : Nat) : Prop :=
  slot < g.pages ∧ offset < g.pageSize

instance (g : Geometry) (slot offset : Nat) : Decidable (g.Contains slot offset) :=
  inferInstanceAs (Decidable (slot < g.pages ∧ offset < g.pageSize))

/-- The index of a word in the medium. -/
def index (g : Geometry) (slot offset : Nat) : Nat :=
  slot * g.pageSize + offset

/-- The slot behind `slot` on the ring of pages. A slot number beyond the ring is brought back onto
it. -/
def next (g : Geometry) (slot : Nat) : Nat :=
  if slot + 1 < g.pages then slot + 1
  else if slot < g.pages then 0
  else (slot + 1) % g.pages

/-- The slot before `slot` on the ring of pages. -/
def previous (g : Geometry) (slot : Nat) : Nat :=
  if slot = 0 then g.pages - 1 else slot - 1

/-- How many steps of `next` lead from `slot` to `target`. -/
def distance (g : Geometry) (slot target : Nat) : Nat :=
  if slot ≤ target then target - slot else target + g.pages - slot

/-! ## Indices -/

theorem index_lt {g : Geometry} {slot offset : Nat} (h : g.Contains slot offset) :
    g.index slot offset < g.size := by
  have hle : (slot + 1) * g.pageSize ≤ g.pages * g.pageSize :=
    Nat.mul_le_mul_right _ (Nat.succ_le_of_lt h.1)
  rw [Nat.succ_mul] at hle
  have hoffset := h.2
  simp only [index, size]
  omega

theorem index_inj {g : Geometry} {slot offset s o : Nat} (h : g.Contains slot offset)
    (h' : g.Contains s o) : g.index slot offset = g.index s o ↔ s = slot ∧ o = offset := by
  refine ⟨fun heq => ?_, fun heq => by rw [heq.1, heq.2]⟩
  have hslot : slot = s := by
    have hdiv := congrArg (· / g.pageSize) heq
    have hpos : 0 < g.pageSize := by have := h.2; omega
    simp only [index] at hdiv
    rwa [Nat.mul_comm slot, Nat.mul_comm s, Nat.mul_add_div hpos, Nat.mul_add_div hpos,
      Nat.div_eq_of_lt h.2, Nat.div_eq_of_lt h'.2] at hdiv
  subst hslot
  simp only [index] at heq
  omega

/-- The indices of a page are `pageSize` consecutive ones, and no other page has any of them. -/
theorem mem_page_iff {g : Geometry} {slot s o : Nat} (h' : g.Contains s o) :
    g.index slot 0 ≤ g.index s o ∧ g.index s o < g.index slot 0 + g.pageSize ↔ s = slot := by
  have ho := h'.2
  have hstep : ∀ i j : Nat, i < j → i * g.pageSize + g.pageSize ≤ j * g.pageSize := by
    intro i j hij
    have := Nat.mul_le_mul_right g.pageSize (Nat.succ_le_of_lt hij)
    rwa [Nat.succ_mul] at this
  simp only [index]
  rcases Nat.lt_trichotomy s slot with hlt | heq | hgt
  · have := hstep s slot hlt
    constructor <;> intro _ <;> omega
  · subst heq
    constructor <;> intro _ <;> omega
  · have := hstep slot s hgt
    constructor <;> intro _ <;> omega

/-! ## The ring -/

theorem next_lt {g : Geometry} {slot : Nat} (h : 0 < g.pages) : g.next slot < g.pages := by
  unfold next
  split
  · assumption
  · split
    · exact h
    · exact Nat.mod_lt _ h

theorem previous_next {g : Geometry} {slot : Nat} (h : slot < g.pages) :
    g.previous (g.next slot) = slot := by
  unfold previous next
  grind

theorem next_previous {g : Geometry} {slot : Nat} (h : slot < g.pages) :
    g.next (g.previous slot) = slot := by
  unfold previous next
  grind

/-- One step of `next` brings a slot one step closer to any other slot. -/
theorem distance_next {g : Geometry} {slot target : Nat} (h : slot < g.pages)
    (htarget : target < g.pages) (hne : slot ≠ target) :
    g.distance slot target = g.distance (g.next slot) target + 1 := by
  unfold distance next
  grind

theorem distance_eq_zero {g : Geometry} {slot target : Nat} (h : slot < g.pages) :
    g.distance slot target = 0 ↔ slot = target := by
  unfold distance
  grind

end Geometry

end RingLog
