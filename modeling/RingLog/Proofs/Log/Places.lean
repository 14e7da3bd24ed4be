import RingLog.Proofs.Log.Walk
import RingLog.Proofs.Ring.Lap

/-!
# The places of a walk

On its way from the oldest record to the frontier a cursor comes to the records of the older pages
and to all of the page being written, and to no other place. It comes closer to that page whenever
it leaves one, and at none of these places does it roll on by itself.

Main statements: `Log.visits_oldest`, `Log.settle_of_visits` and `Cursor.Visits.distance_le`.
-/

namespace RingLog

variable {g : Geometry}

/-- The places that a cursor comes to on its way to the frontier. -/
inductive Cursor.Visits (medium : Medium g) (frontier : Cursor) : Cursor → Cursor → Prop
  | here (cursor : Cursor) : Visits medium frontier cursor cursor
  | onward {cursor place : Cursor} (hreached : cursor.reached frontier = false)
      (hrest : Visits medium frontier (cursor.advance medium frontier) place) :
      Visits medium frontier cursor place

namespace Cursor

variable {medium : Medium g} {cursor frontier place : Cursor}

theorem visits_of_reached (hreached : cursor.reached frontier = true) :
    Visits medium frontier cursor place ↔ place = cursor := by
  constructor
  · intro h
    cases h with
    | here => rfl
    | onward hnot _ =>
      rw [hreached] at hnot
      cases hnot
  · intro h
    rw [h]
    exact .here cursor

theorem visits_of_not_reached (hreached : cursor.reached frontier = false) :
    Visits medium frontier cursor place ↔ place = cursor ∨ Visits medium frontier
      (settle medium ⟨cursor.page, cursor.index + 1⟩ frontier) place := by
  have hadvance : cursor.advance medium frontier =
      settle medium ⟨cursor.page, cursor.index + 1⟩ frontier := by
    rw [advance, hreached, if_neg Bool.false_ne_true]
  constructor
  · intro h
    cases h with
    | here => exact .inl rfl
    | onward _ hrest => exact .inr (hadvance ▸ hrest)
  · rintro (h | h)
    · rw [h]
      exact .here cursor
    · exact .onward hreached (hadvance ▸ h)

theorem Visits.advance (h : Visits medium frontier cursor place)
    (hreached : place.reached frontier = false) :
    Visits medium frontier cursor (place.advance medium frontier) := by
  induction h with
  | here => exact .onward hreached (.here _)
  | onward hnot _ ih => exact .onward hnot (ih hreached)

/-- A cursor that rolls on comes closer to the frontier. -/
theorem distance_settle_le (medium : Medium g) (hslot : cursor.page.slot < g.pages)
    (htarget : frontier.page.slot < g.pages) :
    (settle medium cursor frontier).page.slot < g.pages ∧
      g.distance (settle medium cursor frontier).page.slot frontier.page.slot ≤
        g.distance cursor.page.slot frontier.page.slot := by
  -- induction on the distance to the frontier's page
  induction hhops : g.distance cursor.page.slot frontier.page.slot generalizing cursor with
  | zero =>
    rw [settle, hhops, settleWithin]
    exact ⟨hslot, Nat.le_of_eq hhops⟩
  | succ hops ih =>
    by_cases hvalue : cursor.value medium = Word.erased
    · have hne := Geometry.ne_of_distance_eq_succ hhops
      have hnext := Geometry.distance_next hslot htarget hne
      have hturned := slot_turnPage medium cursor frontier
      have hlt : g.next cursor.page.slot < g.pages := Geometry.next_lt (by omega)
      obtain ⟨hsettled, hle⟩ := ih (hturned ▸ hlt) (by rw [hturned]; omega)
      rw [settle_of_value_eq hvalue hslot htarget hne]
      exact ⟨hsettled, by omega⟩
    · rw [settle_of_value_ne hvalue]
      exact ⟨hslot, Nat.le_of_eq hhops⟩

theorem Visits.distance_le (h : Visits medium frontier cursor place)
    (hslot : cursor.page.slot < g.pages) (htarget : frontier.page.slot < g.pages) :
    g.distance place.page.slot frontier.page.slot ≤
      g.distance cursor.page.slot frontier.page.slot := by
  induction h with
  | here => exact Nat.le_refl _
  | @onward cursor _ hreached _ ih =>
    rw [Cursor.advance, hreached, if_neg Bool.false_ne_true] at ih
    have hnext : (⟨cursor.page, cursor.index + 1⟩ : Cursor).page.slot < g.pages := hslot
    obtain ⟨hlt, hle⟩ := distance_settle_le medium hnext htarget
    exact Nat.le_trans (ih hlt) hle

end Cursor

namespace Log

variable {log : Log g} {page : Page} {index : Nat} {place : Cursor}

/-- From a place of the page being written a cursor comes to the others up to the frontier. -/
theorem visits_active (log : Log g) (place : Cursor) (hindex : index ≤ log.used) :
    Cursor.Visits log.medium log.frontier ⟨log.page, index⟩ place ↔
      place.page = log.page ∧ index ≤ place.index ∧ place.index ≤ log.used := by
  rcases place with ⟨placePage, placeIndex⟩
  -- induction on the records left before the frontier
  induction hleft : log.used - index generalizing index with
  | zero =>
    have hreached : Cursor.reached ⟨log.page, index⟩ log.frontier = true := by
      rw [reached_active, decide_eq_true_eq]
      omega
    rw [Cursor.visits_of_reached hreached, Cursor.mk.injEq]
    dsimp only
    refine and_congr_right fun _ => ?_
    omega
  | succ left ih =>
    have hreached : Cursor.reached ⟨log.page, index⟩ log.frontier = false := by
      rw [reached_active, decide_eq_false_iff_not]
      omega
    have hrest := ih (show index + 1 ≤ log.used by omega) (by omega)
    rw [Cursor.visits_of_not_reached hreached, log.settle_active, hrest, Cursor.mk.injEq]
    dsimp only
    rw [← and_or_left]
    refine and_congr_right fun _ => ?_
    omega

/-- On an older page a cursor comes to the places with a record and goes on behind them. -/
theorem visits_page (log : Log g) (place : Cursor) (hne : page.slot ≠ log.page.slot)
    (hindex : index ≤ (page.stored log.medium).length) :
    Cursor.Visits log.medium log.frontier
        (Cursor.settle log.medium ⟨page, index⟩ log.frontier) place ↔
      (place.page = page ∧ index ≤ place.index ∧
        place.index < (place.page.stored log.medium).length) ∨
      Cursor.Visits log.medium log.frontier (Cursor.settle log.medium
        ⟨page, (page.stored log.medium).length⟩ log.frontier) place := by
  rcases place with ⟨placePage, placeIndex⟩
  -- induction on the words left on the page
  induction hleft : (page.stored log.medium).length - index generalizing index with
  | zero =>
    have hend : index = (page.stored log.medium).length := by omega
    rw [hend]
    dsimp only
    refine (or_iff_right ?_).symm
    rintro ⟨rfl, hle, hlt⟩
    omega
  | succ left ih =>
    have hlt : index < (page.stored log.medium).length := by omega
    have hreached : Cursor.reached ⟨page, index⟩ log.frontier = false := by
      rw [Cursor.reached, frontier, beq_eq_false_iff_ne.mpr hne, Bool.false_and]
    have hrest := ih (show index + 1 ≤ (page.stored log.medium).length by omega) (by omega)
    rw [Cursor.settle_of_value_ne (Page.read_ne_of_lt_stored hlt),
      Cursor.visits_of_not_reached hreached, hrest, Cursor.mk.injEq, ← or_assoc]
    dsimp only
    rw [← and_or_left]
    refine or_congr_left (and_congr_right fun hpage => ?_)
    rw [hpage]
    omega

/-- From the start of a page a cursor comes to the places of that page and of those behind it. -/
theorem visits_from (log : Log g) (place : Cursor) {page : Page} (hslot : page.slot < g.pages)
    (hne : page.slot ≠ log.page.slot) :
    Cursor.Visits log.medium log.frontier
        (Cursor.settle log.medium ⟨page, 0⟩ log.frontier) place ↔
      (place.page ∈ Page.walk log.medium (g.distance page.slot log.page.slot) page ∧
        place.index < (place.page.stored log.medium).length) ∨
      (place.page = log.page ∧ place.index ≤ log.used) := by
  -- induction on the distance to the page being written, where the cursor takes the frontier's view
  induction hhops : g.distance page.slot log.page.slot generalizing page with
  | zero => exact absurd ((Geometry.distance_eq_zero hslot).mp hhops) hne
  | succ hops ih =>
    have hstep := Geometry.distance_next hslot log.slot_lt hne
    have hend : Cursor.value log.medium ⟨page, (page.stored log.medium).length⟩ = Word.erased :=
      Page.read_length_stored log.medium page
    rw [log.visits_page place hne (Nat.zero_le _),
      Cursor.settle_of_value_eq hend hslot log.slot_lt hne, Cursor.turnPage, Page.walk,
      List.mem_cons]
    by_cases hactive : g.next page.slot = log.page.slot
    · have hturned : (page.next log.medium).slot = log.frontier.page.slot := hactive
      have hstart := log.visits_active place (Nat.zero_le _)
      rw [← log.settle_active] at hstart
      have hzero : hops = 0 := by
        rw [hactive, Geometry.distance_self] at hstep
        omega
      have hfrontier : log.frontier.page = log.page := rfl
      rw [if_pos hturned, hfrontier, hstart, hzero, Page.walk]
      simp only [Nat.zero_le, true_and, List.not_mem_nil, or_false]
    · have hturned : (page.next log.medium).slot ≠ log.frontier.page.slot := hactive
      have hlt : (page.next log.medium).slot < g.pages := Geometry.next_lt log.pages_pos
      have hrest := ih hlt hactive (by rw [Page.next]; dsimp only; omega)
      rw [if_neg hturned, hrest]
      simp only [Nat.zero_le, true_and, or_and_right, or_assoc]

/-- The places that a walk from the oldest record comes to: the records of the older pages, and
the page being written as far as the frontier. -/
theorem visits_oldest (log : Log g) (place : Cursor) :
    Cursor.Visits log.medium log.frontier log.oldest place ↔
      (place.page ∈ log.olderPages ∧ place.index < (place.page.stored log.medium).length) ∨
      (place.page = log.page ∧ place.index ≤ log.used) := by
  have hpages := Config.two_le_pages log.accepted
  have hslot : log.oldestPage.slot = g.next log.page.slot := rfl
  have hfrom := log.visits_from place (hslot ▸ Geometry.next_lt log.pages_pos)
    (Geometry.next_ne_self log.slot_lt hpages)
  rw [hslot, Geometry.distance_next_self log.slot_lt hpages] at hfrom
  exact hfrom

/-- At a place of the log a cursor does not roll on. -/
theorem settle_of_visits (h : Cursor.Visits log.medium log.frontier log.oldest place) :
    Cursor.settle log.medium place log.frontier = place := by
  rcases (log.visits_oldest place).mp h with ⟨-, hindex⟩ | ⟨hpage, -⟩
  · exact Cursor.settle_of_value_ne (Page.read_ne_of_lt_stored hindex)
  · have hactive : place = ⟨log.page, place.index⟩ := by
      rw [← hpage]
    rw [hactive]
    exact log.settle_active place.index

end Log

end RingLog
