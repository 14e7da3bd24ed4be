import Mathlib.Algebra.Group.Action.Defs
import Mathlib.Algebra.Order.BigOperators.Group.List
import RingLog.Proofs.Log.Entries
import RingLog.Proofs.Log.Places

/-!
# Logs on any medium

A boot makes sense of whatever a chip holds, and a walk through the log that it opens ends. Each
step keeps the cursor on its page, further on, or brings it closer to the page being written, where
it takes over the frontier's view. So no slot is entered twice and no place is met twice, and the
walk stands still at the frontier.

Main statements: `Log.trail` and `Log.boot_trail`.
-/

namespace RingLog

variable {g : Geometry}

namespace Cursor

variable {medium : Medium g} {cursor frontier : Cursor}

/-! ## A step ahead -/

/-- A cursor that does not stay where it is comes closer to the frontier's page. -/
theorem settle_eq_or_distance_lt (medium : Medium g) (hslot : cursor.page.slot < g.pages)
    (htarget : frontier.page.slot < g.pages) : settle medium cursor frontier = cursor ∨
      g.distance (settle medium cursor frontier).page.slot frontier.page.slot <
        g.distance cursor.page.slot frontier.page.slot := by
  by_cases hne : cursor.page.slot = frontier.page.slot
  · left
    rw [settle, hne, Geometry.distance_self]
    rfl
  · by_cases hvalue : cursor.value medium = Word.erased
    · right
      have hstep := Geometry.distance_next hslot htarget hne
      have hturned := slot_turnPage medium cursor frontier
      have hlt : (cursor.turnPage medium frontier).page.slot < g.pages :=
        hturned ▸ Geometry.next_lt (by omega)
      obtain ⟨-, hle⟩ := distance_settle_le medium hlt htarget
      rw [settle_of_value_eq hvalue hslot htarget hne]
      rw [hturned] at hle
      omega
    · exact .inl (settle_of_value_ne hvalue)

/-- The place lies ahead of the cursor: closer to the frontier's page, or later on the same page. -/
def Ahead (g : Geometry) (frontier cursor place : Cursor) : Prop :=
  g.distance place.page.slot frontier.page.slot < g.distance cursor.page.slot frontier.page.slot ∨
    place.page = cursor.page ∧ cursor.index < place.index

theorem Ahead.distance_le {place : Cursor} (h : Ahead g frontier cursor place) :
    g.distance place.page.slot frontier.page.slot ≤
      g.distance cursor.page.slot frontier.page.slot := by
  rcases h with hlt | ⟨hpage, -⟩
  · exact Nat.le_of_lt hlt
  · rw [hpage]

theorem Ahead.trans {place later : Cursor} (h : Ahead g frontier cursor place)
    (h' : Ahead g frontier place later) : Ahead g frontier cursor later := by
  rcases h with hlt | ⟨hpage, hindex⟩
  · exact .inl (Nat.lt_of_le_of_lt h'.distance_le hlt)
  · rcases h' with hlt | ⟨hpage', hindex'⟩
    · rw [hpage] at hlt
      exact .inl hlt
    · exact .inr ⟨hpage'.trans hpage, Nat.lt_trans hindex hindex'⟩

theorem ahead_advance (medium : Medium g) (hslot : cursor.page.slot < g.pages)
    (htarget : frontier.page.slot < g.pages) (hreached : cursor.reached frontier = false) :
    Ahead g frontier cursor (cursor.advance medium frontier) := by
  have hnext : (⟨cursor.page, cursor.index + 1⟩ : Cursor).page.slot < g.pages := hslot
  rw [advance, hreached, if_neg Bool.false_ne_true]
  rcases settle_eq_or_distance_lt medium hnext htarget with hstays | hlt
  · rw [hstays]
    exact .inr ⟨rfl, Nat.lt_succ_self _⟩
  · exact .inl hlt

/-! ## Steps of a reader -/

theorem Reads.reached_iterate {entries : List Entry} (h : Reads medium frontier cursor entries) :
    (∀ count < entries.length,
      ((advance medium · frontier)^[count] cursor).reached frontier = false) ∧
      ((advance medium · frontier)^[entries.length] cursor).reached frontier = true := by
  induction h with
  | stop hreached => exact ⟨fun _ hcount => absurd hcount (Nat.not_lt_zero _), hreached⟩
  | entry hreached _ ih =>
    refine ⟨fun count hcount => ?_, ih.2⟩
    cases count with
    | zero => exact hreached
    | succ count => exact ih.1 count (Nat.lt_of_succ_lt_succ hcount)

end Cursor

/-- A header leaves the rest of the medium as it is. -/
theorem Page.read_initialise (chip : Chip g) (page : Page) (slot : Nat) {offset : Nat}
    (hoffset : offset ≠ Header.offset) :
    (page.initialise chip).medium.read slot offset = chip.medium.read slot offset := by
  by_cases hcut : chip.supply = some 0
  · rw [initialise, Chip.program, Chip.perform_cut hcut]
  · rw [initialise, Chip.program, Chip.perform_powered hcut, Medium.apply, Medium.read_program,
      if_neg fun h => hoffset h.2.2]

namespace Log

variable {log : Log g} {cursor : Cursor}

/-! ## The places in order -/

/-- Where a cursor stands so many steps behind the oldest record. -/
def place (log : Log g) (count : Nat) : Cursor :=
  (Cursor.advance log.medium · log.frontier)^[count] log.oldest

theorem place_succ (log : Log g) (count : Nat) :
    log.place (count + 1) = (log.place count).advance log.medium log.frontier :=
  Function.iterate_succ_apply' ..

theorem slot_lt_of_visits (h : Cursor.Visits log.medium log.frontier log.oldest cursor) :
    cursor.page.slot < g.pages := by
  rcases (log.visits_oldest cursor).mp h with ⟨hmem, -⟩ | ⟨hpage, -⟩
  · exact (slot_of_mem_olderPages hmem).1
  · rw [hpage]
    exact log.slot_lt

/-- In the slot being written the cursor has the frontier's view and is not past it. -/
theorem active_of_visits (h : Cursor.Visits log.medium log.frontier log.oldest cursor)
    (hslot : cursor.page.slot = log.page.slot) :
    cursor.page = log.page ∧ cursor.index ≤ log.used := by
  rcases (log.visits_oldest cursor).mp h with ⟨hmem, -⟩ | hactive
  · exact absurd hslot (slot_of_mem_olderPages hmem).2
  · exact hactive

theorem eq_frontier_of_reached (h : Cursor.Visits log.medium log.frontier log.oldest cursor)
    (hreached : cursor.reached log.frontier = true) : cursor = log.frontier := by
  rw [Cursor.reached, Bool.and_eq_true, beq_iff_eq, decide_eq_true_eq] at hreached
  obtain ⟨hpage, hle⟩ := active_of_visits h hreached.1
  obtain ⟨page, index⟩ := cursor
  have hge : log.used ≤ index := hreached.2
  dsimp only at hpage hle
  rw [hpage, frontier, Nat.le_antisymm hle hge]

theorem visits_place (log : Log g) (count : Nat) :
    Cursor.Visits log.medium log.frontier log.oldest (log.place count) := by
  induction count with
  | zero => exact .here _
  | succ count ih =>
    rw [place_succ]
    cases hreached : (log.place count).reached log.frontier with
    | true =>
      rw [Cursor.advance_of_reached hreached]
      exact ih
    | false => exact ih.advance hreached

/-- A walk ends after so many steps: until then the frontier is not reached, and from then on the
cursor stands there. It stays on the ring and never passes the frontier, it comes to each slot at
most once, and to each place of a slot at most once. -/
structure Trail (log : Log g) (steps : Nat) : Prop where
  not_reached : ∀ count < steps, (log.place count).reached log.frontier = false
  stays : ∀ count, steps ≤ count → log.place count = log.frontier
  slot_lt : ∀ count, (log.place count).page.slot < g.pages
  not_past : ∀ count, (log.place count).page.slot = log.page.slot →
    (log.place count).page = log.page ∧ (log.place count).index ≤ log.used
  slot_once : ∀ first between last, first ≤ between → between ≤ last →
    (log.place first).page.slot = (log.place last).page.slot →
      (log.place between).page.slot = (log.place first).page.slot
  place_once : ∀ first last, first < last → last ≤ steps →
    (log.place first).page.slot = (log.place last).page.slot →
      (log.place first).index < (log.place last).index

/-- Until the frontier is reached each place lies ahead of those before it. -/
theorem ahead_place {steps : Nat}
    (hsteps : ∀ count < steps, (log.place count).reached log.frontier = false) {first last : Nat}
    (hlt : first < last) (hle : last ≤ steps) :
    Cursor.Ahead g log.frontier (log.place first) (log.place last) := by
  have hnext : ∀ count < steps,
      Cursor.Ahead g log.frontier (log.place count) (log.place (count + 1)) := by
    intro count hcount
    rw [place_succ]
    exact Cursor.ahead_advance log.medium (slot_lt_of_visits (log.visits_place count)) log.slot_lt
      (hsteps count hcount)
  -- induction on the last of the two
  induction last with
  | zero => exact absurd hlt (Nat.not_lt_zero _)
  | succ last ih =>
    have hstep := hnext last hle
    rcases Nat.lt_succ_iff_lt_or_eq.mp hlt with hbefore | rfl
    · exact (ih hbefore (Nat.le_of_succ_le hle)).trans hstep
    · exact hstep

theorem trail (log : Log g) : log.Trail log.entries.length := by
  obtain ⟨hbefore, hend⟩ := log.reads_oldest.reached_iterate
  have hstays : ∀ more, log.place (log.entries.length + more) = log.frontier := by
    intro more
    induction more with
    | zero => exact eq_frontier_of_reached (log.visits_place _) hend
    | succ more ih =>
      have hreached : log.frontier.reached log.frontier = true := by
        simp [Cursor.reached]
      rw [← Nat.add_assoc, place_succ, ih, Cursor.advance_of_reached hreached]
  have hstay : ∀ count, log.entries.length ≤ count → log.place count = log.frontier := by
    intro count hcount
    rw [← Nat.add_sub_cancel' hcount]
    exact hstays _
  have hdistance : ∀ first last, first ≤ last →
      g.distance (log.place last).page.slot log.page.slot ≤
        g.distance (log.place first).page.slot log.page.slot := by
    intro first last hle
    by_cases hlast : last ≤ log.entries.length
    · rcases Nat.lt_or_eq_of_le hle with hlt | rfl
      · exact (ahead_place hbefore hlt hlast).distance_le
      · exact Nat.le_refl _
    · rw [hstay last (by omega), frontier, Geometry.distance_self]
      exact Nat.zero_le _
  have hslot : ∀ count, (log.place count).page.slot < g.pages :=
    fun count => slot_lt_of_visits (log.visits_place count)
  refine ⟨hbefore, hstay, hslot, fun count => active_of_visits (log.visits_place count), ?_, ?_⟩
  · intro first between last hfirst hlast heq
    have hle := hdistance first between hfirst
    have hge := hdistance between last hlast
    rw [← heq] at hge
    exact Geometry.distance_left_inj (hslot between) (hslot first) (Nat.le_antisymm hle hge)
  · intro first last hlt hlast heq
    rcases ahead_place hbefore hlt hlast with hcloser | ⟨-, hindex⟩
    · rw [heq] at hcloser
      exact absurd hcloser (Nat.lt_irrefl _)
    · exact hindex

/-- There is at most one entry for each word of the medium. -/
theorem length_entries_le (log : Log g) : log.entries.length ≤ g.size := by
  have hpages := log.pages_pos
  have hused : log.used ≤ g.pageSize := Nat.le_trans log.used_le (Nat.sub_le _ _)
  have holder : (log.olderPages.map fun page => (page.stored log.medium).length).sum ≤
      (g.pages - 1) * g.pageSize := by
    have hlength : (log.olderPages.map fun page => (page.stored log.medium).length).length =
        g.pages - 1 := by
      rw [List.length_map, olderPages, Page.length_walk]
    rw [← hlength, ← smul_eq_mul]
    refine List.sum_le_card_nsmul _ _ fun count hcount => ?_
    obtain ⟨page, -, rfl⟩ := List.mem_map.mp hcount
    exact Nat.le_trans (page.length_stored_le log.medium) (Nat.sub_le _ _)
  have hlength : log.entries.length =
      (log.olderPages.map fun page => (page.stored log.medium).length).sum + log.used := by
    simp only [entries, List.length_append, List.length_flatMap, Page.length_entries,
      length_activeWords]
  have hsize : g.size = (g.pages - 1) * g.pageSize + g.pageSize := by
    rw [← Nat.succ_mul, Nat.succ_eq_add_one, Nat.sub_add_cancel hpages]
  omega

/-! ## Booting on any medium -/

/-- Read from the start of its page, record after record, the log ends where it says. -/
structure Scanned (log : Log g) : Prop where
  read_ne : ∀ index < log.used, log.page.read log.medium index ≠ Word.erased
  read_used : log.page.read log.medium log.used = Word.erased

/-- The page that a boot goes on with is read as far as the first erased word. -/
theorem scanned_recover (chip : Chip g) {config : Config} (accepted : config.fault? g = none) :
    (recover chip config accepted).Scanned := by
  unfold recover
  dsimp only
  split
  · rename_i herased
    refine ⟨fun _ hindex => absurd hindex (Nat.not_lt_zero _), ?_⟩
    have hsize : config.headerSize ≠ 0 := (Config.requirements_of_accepted accepted).2.1
    have hpos : config.headerSize.toNat ≠ Header.offset := fun hzero =>
      hsize (UInt8.toNat_inj.mp hzero)
    unfold Page.read
    split
    · exact (Page.read_initialise chip _ _ hpos).trans (Medium.isErased_iff.mp herased _)
    · rfl
  · exact ⟨fun _ => Page.read_ne_of_lt_stored, Page.read_length_stored ..⟩

/-- Whatever a chip holds, garbage included, a log is opened on it if the configuration is accepted.
The page to go on with is read up to an erased word or its end. A walk then reads the entries, at
most one for each word of the medium, and comes to the frontier. -/
theorem boot_trail (chip : Chip g) {config : Config} (accepted : config.fault? g = none)
    (now : Instant) : ∃ log, boot chip config now = .ok log ∧
      (found chip config accepted).Scanned ∧ log.page = (found chip config accepted).page ∧
      Cursor.Reads log.medium log.frontier log.oldest log.entries ∧
      log.entries.length ≤ g.size ∧ log.Trail log.entries.length := by
  obtain ⟨log, hboot, hpushed⟩ := boot_ok chip accepted now
  exact ⟨log, hboot, scanned_recover _ accepted, hpushed.page_eq, log.reads_oldest,
    log.length_entries_le, log.trail⟩

/-- Slot zero has a header of no size and counts as the active one, so its header is read as a
record. Slot one has a header larger than the page, slot two holds zeros only: four records. -/
theorem boot_trail_garbage :
    let medium : Medium ⟨3, 4⟩ :=
      ⟨#v[0x01000005, 7, Word.erased, 9, 0x01c81234, 1, 2, 3, 0, 0, 0, 0]⟩
    let config : Config := ⟨0, 1⟩
    config.fault? ⟨3, 4⟩ = none ∧ ∃ log, boot { medium } config ⟨0⟩ = .ok log ∧
      log.entries.length = 7 ∧ (log.place 6).reached log.frontier = false ∧
      log.place 7 = log.frontier := by
  intro medium config
  have accepted : config.fault? ⟨3, 4⟩ = none := by decide
  obtain ⟨log, hboot, -, -, -, -, htrail⟩ := boot_trail { medium } accepted ⟨0⟩
  obtain ⟨other, hother, hlength⟩ : ∃ log, boot { medium } config ⟨0⟩ = .ok log ∧
      log.entries.length = 7 := ⟨_, rfl, by decide +kernel⟩
  rw [hboot] at hother
  cases hother
  rw [hlength] at htrail
  exact ⟨accepted, log, hboot, hlength, htrail.not_reached 6 (by decide),
    htrail.stays 7 (Nat.le_refl _)⟩

end Log

end RingLog
