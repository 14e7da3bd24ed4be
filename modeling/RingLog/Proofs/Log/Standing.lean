import RingLog.Proofs.Log.Leaves
import RingLog.Proofs.Log.Recording

/-!
# Where a cursor stands

A cursor stands on a log (`Log.Stands`) when its page is the one that its slot holds. What it has
before it (`Log.ahead`) is then the end of the log from its place on. One step gives the first of
these entries and leaves the cursor standing before the others, and writing records adds to them at
the end. A rotation changes nothing of that unless it recycles the very page.

The cursor of a reader that has been lapped stands no more. A step notices that by the age of the
page: the reader's page is older than the oldest one with a record.

Main statements: `Log.Stands.step`, `Log.Stands.pushed`, `Log.Stands.turned` and
`Log.Shows.distance_oldest`.
-/

namespace RingLog

variable {g : Geometry}

namespace Log

variable {log log' : Log g} {cursor : Cursor} {words : List Word} {slot : Nat}

/-- The cursor's page is the one in its slot, and the cursor is not behind the end of its words. -/
structure Stands (log : Log g) (cursor : Cursor) : Prop where
  slot_lt : cursor.page.slot < g.pages
  load_eq : Page.load log.medium cursor.page.slot = cursor.page
  index_le : cursor.index ≤ (log.medium.wordsAt cursor.page.slot).length

/-- What there is to read from the cursor on. -/
def ahead (log : Log g) (cursor : Cursor) : List Entry :=
  (log.entriesFrom cursor.page).drop cursor.index

theorem stands_start (log : Log g) (hslot : slot < g.pages) :
    log.Stands ⟨Page.load log.medium slot, 0⟩ :=
  ⟨hslot, rfl, Nat.zero_le _⟩

theorem Stands.stored_eq (h : log.Stands cursor) :
    cursor.page.stored log.medium = log.medium.wordsAt cursor.page.slot := by
  rw [Medium.wordsAt, h.load_eq]

/-- A standing cursor is behind the last word of its page, or on a record. -/
theorem Stands.value_eq_erased_iff (h : log.Stands cursor) :
    cursor.value log.medium = Word.erased ↔
      cursor.index = (log.medium.wordsAt cursor.page.slot).length := by
  have hindex := h.index_le
  rw [← h.stored_eq] at hindex ⊢
  constructor
  · intro hvalue
    refine Nat.le_antisymm hindex (Nat.le_of_not_lt fun hlt => ?_)
    exact Page.read_ne_of_lt_stored hlt hvalue
  · intro hend
    rw [Cursor.value, hend]
    exact Page.read_length_stored log.medium cursor.page

theorem Stands.entriesAt_eq (h : log.Stands cursor) : log.medium.entriesAt cursor.page.slot =
    cursor.page.entries g (cursor.page.stored log.medium) := by
  rw [Medium.entriesAt, h.load_eq, h.stored_eq]

/-! ## What is ahead -/

theorem Stands.ahead_of_eq (h : log.Stands cursor) (hstep : log.InStep)
    (heq : cursor.page.slot = log.page.slot) :
    log.ahead cursor = (log.medium.entriesAt cursor.page.slot).drop cursor.index := by
  rw [ahead, heq, ← hstep.entriesFrom_active, ← heq, h.load_eq]

theorem Stands.ahead_of_ne (h : log.Stands cursor) (hfull : log.medium.FullRing log.page)
    (hne : cursor.page.slot ≠ log.page.slot) :
    log.ahead cursor = (log.medium.entriesAt cursor.page.slot).drop cursor.index ++
      log.entriesFrom (Page.load log.medium (g.next cursor.page.slot)) := by
  have hindex := h.index_le
  rw [← Medium.length_entriesAt] at hindex
  have hfrom := entriesFrom_next hfull h.slot_lt hne
  rw [h.load_eq] at hfrom
  rw [ahead, hfrom, List.drop_append_of_le_length hindex]

/-- Whether the page is the one being written or not, its words from the cursor on come first. -/
theorem Stands.ahead_eq (h : log.Stands cursor) (hstep : log.InStep)
    (hfull : log.medium.FullRing log.page) :
    ∃ rest, log.ahead cursor = (log.medium.entriesAt cursor.page.slot).drop cursor.index ++ rest ∧
      ∀ index ≤ (log.medium.wordsAt cursor.page.slot).length, log.ahead ⟨cursor.page, index⟩ =
        (log.medium.entriesAt cursor.page.slot).drop index ++ rest := by
  by_cases hactive : cursor.page.slot = log.page.slot
  · refine ⟨[], by rw [h.ahead_of_eq hstep hactive, List.append_nil], fun index hindex => ?_⟩
    have hother : log.Stands ⟨cursor.page, index⟩ := ⟨h.slot_lt, h.load_eq, hindex⟩
    rw [hother.ahead_of_eq hstep hactive, List.append_nil]
  · refine ⟨_, h.ahead_of_ne hfull hactive, fun index hindex => ?_⟩
    have hother : log.Stands ⟨cursor.page, index⟩ := ⟨h.slot_lt, h.load_eq, hindex⟩
    exact hother.ahead_of_ne hfull hactive

theorem Stands.index_le_length (h : log.Stands cursor) (hstep : log.InStep)
    (hfull : log.medium.FullRing log.page) :
    cursor.index ≤ (log.entriesFrom (Page.load log.medium cursor.page.slot)).length := by
  have hindex := h.index_le
  rw [← Medium.length_entriesAt] at hindex
  by_cases hactive : cursor.page.slot = log.page.slot
  · rw [hactive] at hindex ⊢
    rwa [hstep.entriesFrom_active]
  · rw [entriesFrom_next hfull h.slot_lt hactive, List.length_append]
    omega

theorem Stands.ahead_suffix (h : log.Stands cursor) (hfull : log.medium.FullRing log.page) :
    log.ahead cursor <:+ log.entries := by
  have hsuffix := entriesFrom_suffix hfull h.slot_lt
  rw [h.load_eq] at hsuffix
  exact (List.drop_suffix _ _).trans hsuffix

/-! ## Steps -/

/-- The cursor is on the page being written, or there is a record under it. -/
def Settled (log : Log g) (cursor : Cursor) : Prop :=
  cursor.page.slot = log.page.slot ∨ cursor.value log.medium ≠ Word.erased

/-- Behind the last word of an older page a cursor goes on at the start of the next page. -/
theorem Stands.turnPage_eq (h : log.Stands cursor) (hstep : log.InStep)
    (hfull : log.medium.FullRing log.page) (hne : cursor.page.slot ≠ log.page.slot) :
    cursor.turnPage log.medium log.frontier =
      ⟨Page.load log.medium (g.next cursor.page.slot), 0⟩ := by
  have hnext := hfull.next_load h.slot_lt hne
  rw [h.load_eq] at hnext
  rw [Cursor.turnPage, hnext, frontier]
  dsimp only
  split
  · rename_i hactive
    have hslot : g.next cursor.page.slot = log.page.slot := hactive
    rw [hslot, hstep.holds.load_eq]
  · rfl

theorem Stands.settle_next (h : log.Stands cursor) (hstep : log.InStep)
    (hfull : log.medium.FullRing log.page) (hne : cursor.page.slot ≠ log.page.slot)
    (hvalue : cursor.value log.medium = Word.erased) :
    cursor.settle log.medium log.frontier = Cursor.settle log.medium
      ⟨Page.load log.medium (g.next cursor.page.slot), 0⟩ log.frontier := by
  rw [Cursor.settle_of_value_eq hvalue h.slot_lt log.slot_lt hne, h.turnPage_eq hstep hfull hne]

/-- Settling moves a cursor to the next record, or to the page being written. -/
theorem Stands.settle (h : log.Stands cursor) (hstep : log.InStep)
    (hfull : log.medium.FullRing log.page) :
    log.Stands (cursor.settle log.medium log.frontier) ∧
      log.Settled (cursor.settle log.medium log.frontier) ∧
      log.ahead (cursor.settle log.medium log.frontier) = log.ahead cursor := by
  -- induction on the distance to the page being written
  induction hhops : g.distance cursor.page.slot log.page.slot generalizing cursor with
  | zero =>
    have hsame : cursor.settle log.medium log.frontier = cursor := by
      rw [Cursor.settle, frontier, hhops]
      rfl
    rw [hsame]
    exact ⟨h, .inl ((Geometry.distance_eq_zero h.slot_lt).mp hhops), rfl⟩
  | succ hops ih =>
    have hne : cursor.page.slot ≠ log.page.slot := Geometry.ne_of_distance_eq_succ hhops
    by_cases hvalue : cursor.value log.medium = Word.erased
    · have hend := h.value_eq_erased_iff.mp hvalue
      have hnext := Geometry.distance_next h.slot_lt log.slot_lt hne
      have hlt : g.next cursor.page.slot < g.pages := Geometry.next_lt log.pages_pos
      have hdistance : g.distance (Page.load log.medium (g.next cursor.page.slot)).slot
          log.page.slot = hops := by
        have hslot : (Page.load log.medium (g.next cursor.page.slot)).slot =
            g.next cursor.page.slot := rfl
        rw [hslot]
        omega
      have hahead : log.ahead cursor =
          log.ahead ⟨Page.load log.medium (g.next cursor.page.slot), 0⟩ := by
        rw [h.ahead_of_ne hfull hne, hend, ← Medium.length_entriesAt, List.drop_length,
          List.nil_append, ahead, List.drop_zero]
      rw [h.settle_next hstep hfull hne hvalue, hahead]
      exact ih (log.stands_start hlt) hdistance
    · rw [Cursor.settle_of_value_ne hvalue]
      exact ⟨h, .inr hvalue, rfl⟩

/-- A settled cursor is at the frontier, or there is an entry under it. -/
theorem Stands.reached_or_entry (h : log.Stands cursor) (hstep : log.InStep)
    (hfull : log.medium.FullRing log.page) (hsettled : log.Settled cursor) :
    (cursor.reached log.frontier = true ∧ log.ahead cursor = [] ∧ cursor = log.frontier) ∨
      (cursor.reached log.frontier = false ∧ log.Stands ⟨cursor.page, cursor.index + 1⟩ ∧
        log.ahead cursor =
          cursor.entry log.medium :: log.ahead ⟨cursor.page, cursor.index + 1⟩) := by
  have hindex := h.index_le
  obtain ⟨rest, hahead, hrest⟩ := h.ahead_eq hstep hfull
  by_cases hend : cursor.index = (log.medium.wordsAt cursor.page.slot).length
  · have hactive : cursor.page.slot = log.page.slot :=
      hsettled.resolve_right fun hvalue => hvalue (h.value_eq_erased_iff.mpr hend)
    have hpage : cursor.page = log.page := by
      rw [← h.load_eq, hactive, hstep.holds.load_eq]
    have hused : cursor.index = log.used := by
      rw [hend, hactive, hstep.used_eq]
    have hcursor : cursor = log.frontier := by
      rw [frontier, ← hpage, ← hused]
    refine .inl ⟨?_, ?_, hcursor⟩
    · rw [hcursor]
      exact (log.reached_active log.used).trans (decide_eq_true (Nat.le_refl _))
    · rw [h.ahead_of_eq hstep hactive, hend, ← Medium.length_entriesAt, List.drop_length]
  · have hlt : cursor.index < (cursor.page.stored log.medium).length := by
      rw [h.stored_eq]
      omega
    refine .inr ⟨?_, ⟨h.slot_lt, h.load_eq, ?_⟩, ?_⟩
    · by_cases hactive : cursor.page.slot = log.page.slot
      · have hpage : cursor.page = log.page := by
          rw [← h.load_eq, hactive, hstep.holds.load_eq]
        have hused : log.used = (cursor.page.stored log.medium).length := by
          rw [h.stored_eq, hactive, hstep.used_eq]
        have hreached := log.reached_active cursor.index
        rw [← hpage] at hreached
        rw [hreached, decide_eq_false_iff_not]
        omega
      · rw [Cursor.reached, frontier, beq_eq_false_iff_ne.mpr hactive, Bool.false_and]
    · rw [← h.stored_eq]
      exact hlt
    · rw [hahead, hrest (cursor.index + 1) (h.stored_eq ▸ hlt), h.entriesAt_eq,
        Page.drop_entries hlt, List.cons_append, ← Page.read_of_lt_stored hlt]
      rfl

/-- From where a reader stands, or from the oldest record if it was lapped, one step gives the
entry ahead and goes on before the next one. -/
theorem Stands.step {start : Cursor}
    (hstart : start = if cursor.isBehind log.oldest then log.oldest else cursor)
    (h : log.Stands start) (hstep : log.InStep) (hfull : log.medium.FullRing log.page) :
    log.Stands (log.step cursor).cursor ∧ log.Settled (log.step cursor).cursor ∧
      (log.step cursor).found = (log.ahead start).head? ∧
      log.ahead (log.step cursor).cursor = (log.ahead start).tail ∧
      ((log.step cursor).found = none → (log.step cursor).cursor = log.frontier) := by
  obtain ⟨hstands, hsettled, hahead⟩ := h.settle hstep hfull
  unfold Log.step
  dsimp only
  rw [← hstart, ← hahead]
  rcases hstands.reached_or_entry hstep hfull hsettled with
    ⟨hreached, hnone, hfrontier⟩ | ⟨hreached, hnext, hentry⟩
  · rw [if_pos hreached, hnone]
    exact ⟨hstands, hsettled, rfl, rfl, fun _ => hfrontier⟩
  · have hsettle := hnext.settle hstep hfull
    rw [if_neg (by rw [hreached]; exact Bool.false_ne_true), Cursor.advance, hreached,
      if_neg Bool.false_ne_true, hentry]
    exact ⟨hsettle.1, hsettle.2.1, rfl, hsettle.2.2, fun hnone => by cases hnone⟩

/-! ## The log goes on -/

theorem Stands.pushed (h : log.Stands cursor) (hstep : log.InStep)
    (hfull : log.medium.FullRing log.page) (hp : log.Pushed log' words)
    (hwords : Word.erased ∉ words) :
    log'.Stands cursor ∧ log'.ahead cursor = log.ahead cursor ++ log.added words := by
  have hload := hstep.load_pushed hp hwords cursor.page.slot
  have hstands : log'.Stands cursor := by
    refine ⟨h.slot_lt, hload.trans h.load_eq, ?_⟩
    have hindex := h.index_le
    rw [hstep.wordsAt_pushed hp hwords, List.length_append]
    omega
  refine ⟨hstands, ?_⟩
  have hfrom := hstep.entriesFrom_pushed hfull hp hwords h.slot_lt
  rw [hstands.load_eq] at hfrom
  rw [ahead, hfrom, List.drop_append_of_le_length (h.index_le_length hstep hfull), h.load_eq, ahead]

theorem Stands.turned (h : log.Stands cursor) (hring : log.OnRing)
    (hfull : log.medium.FullRing log.page) (hne : cursor.page.slot ≠ g.next log.page.slot) :
    log.turned.Stands cursor ∧ log.turned.ahead cursor = log.ahead cursor := by
  have hread := hring.read_turned hne
  have hstands : log.turned.Stands cursor := by
    refine ⟨h.slot_lt, (Medium.load_congr hread).trans h.load_eq, ?_⟩
    rw [Medium.wordsAt_congr hread]
    exact h.index_le
  refine ⟨hstands, ?_⟩
  have hfrom := hring.entriesFrom_turned hfull h.slot_lt hne
  rw [hstands.load_eq, h.load_eq] at hfrom
  rw [ahead, hfrom, ahead]

/-! ## The oldest record -/

theorem stands_oldest (hstep : log.InStep) (hfull : log.medium.FullRing log.page) :
    log.Stands log.oldest ∧ log.ahead log.oldest = log.entries := by
  obtain ⟨hstands, -, hahead⟩ := (log.stands_start log.next_slot_lt).settle hstep hfull
  refine ⟨hstands, hahead.trans ?_⟩
  rw [ahead, List.drop_zero]
  exact log.entriesFrom_oldestPage

/-- Pages without words are passed over on the way to the oldest leaf. -/
theorem Shows.settle_start {leaves : List Leaf} (h : log.Shows leaves)
    (hwords : ∀ leaf ∈ leaves, leaf.words ≠ []) (hslot : slot < g.pages)
    (hage : leaves.length ≤ g.distance slot log.page.slot + 1) (hleaves : leaves ≠ []) :
    ∃ other < g.pages, g.distance other log.page.slot + 1 = leaves.length ∧
      (Cursor.settle log.medium ⟨Page.load log.medium slot, 0⟩ log.frontier).page =
        Page.load log.medium other := by
  have hstep := h.onRing.toInStep
  have hlength := List.length_pos_iff.mpr hleaves
  -- induction on the distance to the page being written
  induction hhops : g.distance slot log.page.slot generalizing slot with
  | zero =>
    refine ⟨slot, hslot, by omega, ?_⟩
    have hdistance : g.distance (Page.load log.medium slot).slot log.page.slot = 0 := hhops
    rw [Cursor.settle, frontier, hdistance]
    rfl
  | succ hops ih =>
    have hne : slot ≠ log.page.slot := Geometry.ne_of_distance_eq_succ hhops
    have hnext := Geometry.distance_next hslot log.slot_lt hne
    have hstands := log.stands_start hslot
    have hshows := h.shows slot hslot
    by_cases hlast : g.distance slot log.page.slot + 1 = leaves.length
    · have hlt : g.distance slot log.page.slot < leaves.length := by omega
      rw [List.getElem?_eq_getElem hlt] at hshows
      have hstored : log.medium.wordsAt slot ≠ [] := hshows.2 ▸ hwords _ (List.getElem_mem hlt)
      refine ⟨slot, hslot, hlast, ?_⟩
      rw [Cursor.settle_of_value_ne]
      exact fun hvalue => hstored
        (List.length_eq_zero_iff.mp (hstands.value_eq_erased_iff.mp hvalue).symm)
    · rw [List.getElem?_eq_none (by omega)] at hshows
      have hnone : log.medium.wordsAt slot = [] := hshows
      have hvalue : Cursor.value log.medium ⟨Page.load log.medium slot, 0⟩ = Word.erased :=
        hstands.value_eq_erased_iff.mpr (congrArg List.length hnone).symm
      have hage' : leaves.length ≤ g.distance (g.next slot) log.page.slot + 1 := by omega
      have hhops' : g.distance (g.next slot) log.page.slot = hops := by omega
      rw [hstands.settle_next hstep h.full hne hvalue]
      exact ih (Geometry.next_lt log.pages_pos) hage' hhops'

/-- A settled cursor is on a page with a leaf. -/
theorem Shows.distance_lt {leaves : List Leaf} (h : log.Shows leaves) (hleaves : leaves ≠ [])
    (hstands : log.Stands cursor) (hsettled : log.Settled cursor) :
    g.distance cursor.page.slot log.page.slot < leaves.length := by
  rcases hsettled with hactive | hvalue
  · rw [hactive, Geometry.distance_self]
    exact List.length_pos_iff.mpr hleaves
  · refine Nat.lt_of_not_le fun hle => hvalue ?_
    have hshows := h.shows _ hstands.slot_lt
    rw [List.getElem?_eq_none hle] at hshows
    have hnone : log.medium.wordsAt cursor.page.slot = [] := hshows
    have hindex := hstands.index_le
    rw [hnone] at hindex
    rw [hstands.value_eq_erased_iff, hnone]
    exact Nat.le_zero.mp hindex

theorem Shows.distance_oldest {leaves : List Leaf} (h : log.Shows leaves)
    (hwords : ∀ leaf ∈ leaves, leaf.words ≠ []) (hleaves : leaves ≠ []) :
    g.distance log.oldest.page.slot log.page.slot + 1 = leaves.length := by
  have hnext := Geometry.distance_next_self log.slot_lt log.two_le_pages
  have hlength := h.length_le
  obtain ⟨slot, hslot, hdistance, hpage⟩ :=
    h.settle_start hwords log.next_slot_lt (by omega) hleaves
  have holdest : log.oldest.page = Page.load log.medium slot := hpage
  rw [holdest]
  exact hdistance

/-- A standing cursor has the number of its turn. -/
theorem Stands.number_eq (h : log.Stands cursor) (hfull : log.medium.FullRing log.page) :
    cursor.page.number =
      log.page.number - UInt16.ofNat (g.distance cursor.page.slot log.page.slot) := by
  rw [← h.load_eq]
  exact (hfull.inTurn _ h.slot_lt).2

end Log

end RingLog
