import Mathlib.Data.List.Iterate
import RingLog.Proofs.Ring.Order

/-!
# Laps around the ring

A lap goes once through the slots of the ring in order. The lap of a slot (`Geometry.lap`) starts
behind it and leaves it out; the pages on it are the older ones while the slot is being written.

Main statements: `Geometry.mem_lap`, a lap meets every other slot; `Page.flatMap_stored_walk` and
`Medium.FullRing.walk_eq`, a walk finds on its way what the slots hold.
-/

namespace RingLog

variable {g : Geometry}

namespace Geometry

/-- The other slots in ring order, from the next one on. -/
def lap (g : Geometry) (slot : Nat) : List Nat :=
  List.iterate g.next (g.next slot) (g.pages - 1)

variable {slot target : Nat}

theorem distance_lt (hslot : slot < g.pages) (htarget : target < g.pages) :
    g.distance slot target < g.pages := by
  unfold distance
  split <;> omega

theorem distance_pos (hslot : slot < g.pages) (hne : slot ≠ target) :
    0 < g.distance slot target :=
  Nat.pos_of_ne_zero fun hzero => hne ((distance_eq_zero hslot).mp hzero)

theorem ne_of_distance_eq_succ {count : Nat} (h : g.distance slot target = count + 1) :
    slot ≠ target := by
  rintro rfl
  rw [distance_self] at h
  cases h

theorem distance_left_inj {other : Nat} (hslot : slot < g.pages) (hother : other < g.pages)
    (h : g.distance slot target = g.distance other target) : slot = other := by
  unfold distance at h
  split at h <;> split at h <;> omega

/-- Only the slot behind another is as far from it as a slot can be. -/
theorem distance_lt_of_ne_next (hslot : slot < g.pages) (htarget : target < g.pages)
    (hpages : 2 ≤ g.pages) (hne : slot ≠ g.next target) : g.distance slot target + 1 < g.pages := by
  have hlast := distance_next_self htarget hpages
  have hnext : g.next target < g.pages := next_lt (by omega)
  refine Nat.lt_of_le_of_ne (distance_lt hslot htarget) fun heq => hne ?_
  have hsame : g.distance slot target = g.distance (g.next target) target := by omega
  exact distance_left_inj hslot hnext hsame

theorem iterate_next_lt (hslot : slot < g.pages) (count : Nat) : g.next^[count] slot < g.pages := by
  cases count with
  | zero => exact hslot
  | succ count =>
    rw [Function.iterate_succ_apply']
    exact next_lt (Nat.lt_of_le_of_lt (Nat.zero_le _) hslot)

theorem distance_iterate (hslot : slot < g.pages) (htarget : target < g.pages) {count : Nat}
    (hcount : count ≤ g.distance slot target) :
    g.distance (g.next^[count] slot) target = g.distance slot target - count := by
  induction count with
  | zero => rfl
  | succ count ih =>
    have hbefore := ih (Nat.le_of_succ_le hcount)
    have hlt := iterate_next_lt hslot count
    have hne : g.next^[count] slot ≠ target := by
      intro heq
      rw [heq, distance_self] at hbefore
      omega
    have hstep := distance_next hlt htarget hne
    rw [Function.iterate_succ_apply']
    omega

theorem iterate_distance (hslot : slot < g.pages) (htarget : target < g.pages) :
    g.next^[g.distance slot target] slot = target := by
  have hdistance := distance_iterate hslot htarget (Nat.le_refl _)
  rw [Nat.sub_self] at hdistance
  exact (distance_eq_zero (iterate_next_lt hslot _)).mp hdistance

theorem mem_lap (hslot : slot < g.pages) (hpages : 2 ≤ g.pages) :
    target ∈ g.lap slot ↔ target < g.pages ∧ target ≠ slot := by
  have hnext : g.next slot < g.pages := next_lt (by omega)
  have hdistance := distance_next_self hslot hpages
  rw [lap, List.mem_iterate]
  constructor
  · rintro ⟨count, hcount, rfl⟩
    refine ⟨iterate_next_lt hnext _, fun heq => ?_⟩
    have hle : count ≤ g.distance (g.next slot) slot := by omega
    have hzero := distance_iterate hnext hslot hle
    rw [heq, distance_self] at hzero
    omega
  · rintro ⟨htarget, hne⟩
    refine ⟨g.distance (g.next slot) target, ?_, (iterate_distance hnext htarget).symm⟩
    have hstep := distance_next hslot htarget hne.symm
    have hlt := distance_lt hslot htarget
    omega

/-- Going on to the next slot, a lap loses its first slot and gains one at its end. -/
theorem lap_concat (hslot : slot < g.pages) (hpages : 2 ≤ g.pages) :
    g.lap slot ++ [slot] = g.next slot :: g.lap (g.next slot) := by
  have hlast := iterate_distance (next_lt (by omega) : g.next slot < g.pages) hslot
  rw [distance_next_self hslot hpages] at hlast
  have hsplit := List.iterate_add g.next (g.next slot) (g.pages - 1) 1
  rw [hlast] at hsplit
  exact hsplit.symm

/-- The further a slot of the lap is from its start, the closer it is to its end. -/
theorem map_distance_lap (hslot : slot < g.pages) (hpages : 2 ≤ g.pages) :
    (g.lap slot ++ [slot]).map (g.distance · slot) = (List.range g.pages).reverse := by
  have hdistance := distance_next_self hslot hpages
  have hlength : (g.lap slot).length = g.pages - 1 := List.length_iterate ..
  refine List.ext_getElem (by simp [hlength]; omega) fun count hcount _ => ?_
  rw [List.length_map, List.length_append, List.length_singleton] at hcount
  rw [List.getElem_map, List.getElem_reverse, List.getElem_range, List.length_range]
  by_cases hlast : count < g.pages - 1
  · rw [List.getElem_append_left (by omega)]
    simp only [lap, List.getElem_iterate]
    rw [distance_iterate (next_lt (by omega)) hslot (by omega)]
    omega
  · rw [List.getElem_append_right (by omega), List.getElem_singleton, distance_self]
    omega

end Geometry

/-! ## Walks -/

theorem Page.map_slot_walk (medium : Medium g) (count : Nat) (page : Page) :
    (walk medium count page).map Page.slot = List.iterate g.next page.slot count := by
  induction count generalizing page with
  | zero => rfl
  | succ count ih =>
    rw [walk, List.map_cons, ih]
    rfl

/-- A walk depends on the headers only. -/
theorem Page.walk_congr {medium medium' : Medium g}
    (h : ∀ slot, load medium' slot = load medium slot) (count : Nat) (page : Page) :
    walk medium' count page = walk medium count page := by
  induction count generalizing page with
  | zero => rfl
  | succ count ih => rw [walk, walk, next, next, h, ih]

theorem Page.stored_eq_wordsAt {medium : Medium g} {page : Page}
    (h : page.headerSize = (load medium page.slot).headerSize) :
    page.stored medium = medium.wordsAt page.slot := by
  obtain ⟨slot, number, headerSize⟩ := page
  dsimp only at h
  subst h
  rfl

/-- A walk takes the header size from each slot, so it finds all words. -/
theorem Page.flatMap_stored_walk {medium : Medium g} (count : Nat) {page : Page}
    (h : page.headerSize = (load medium page.slot).headerSize) :
    (walk medium count page).flatMap (·.stored medium) =
      (List.iterate g.next page.slot count).flatMap medium.wordsAt := by
  induction count generalizing page with
  | zero => rfl
  | succ count ih =>
    rw [walk, List.iterate, List.flatMap_cons, List.flatMap_cons, ih rfl, stored_eq_wordsAt h]
    rfl

namespace Medium

variable {medium : Medium g} {active : Page}

theorem FullRing.next_load (h : medium.FullRing active) {slot : Nat} (hslot : slot < g.pages)
    (hne : slot ≠ active.slot) :
    (Page.load medium slot).next medium = Page.load medium (g.next slot) := by
  have hnext : g.next slot < g.pages := Geometry.next_lt (by omega)
  have hnumber : (Page.load medium slot).number + 1 =
      (Page.load medium (g.next slot)).number := by
    rw [(h.inTurn slot hslot).2, (h.inTurn _ hnext).2, numberAt, numberAt,
      Geometry.distance_next hslot h.slot_lt hne, sub_succ_add_one]
  rw [Page.next, hnumber]
  rfl

/-- The numbers that a walk counts are those in the headers, as far as the active page. -/
theorem FullRing.walk_eq (h : medium.FullRing active) {slot count : Nat} (hslot : slot < g.pages)
    (hcount : count ≤ g.distance slot active.slot + 1) :
    Page.walk medium count (Page.load medium slot) =
      (List.iterate g.next slot count).map (Page.load medium) := by
  induction count generalizing slot with
  | zero => rfl
  | succ count ih =>
    rw [Page.walk, List.iterate, List.map_cons]
    by_cases hactive : slot = active.slot
    · have hzero : count = 0 := by
        rw [hactive, Geometry.distance_self] at hcount
        omega
      rw [hzero]
      rfl
    · have hstep := Geometry.distance_next hslot h.slot_lt hactive
      rw [h.next_load hslot hactive, ih (Geometry.next_lt (by omega)) (by omega)]

end Medium

end RingLog
