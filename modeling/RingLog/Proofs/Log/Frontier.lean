import RingLog.Proofs.Log.Places
import RingLog.Proofs.Log.Refinement

/-!
# Positions in the life of the log

On pages of at most 2^16 words positions are ordered as page number and index are, and no two places
share one. The frontier of a log moves on in this order: by one for each word that its page takes,
and with a rotation to the next number, beyond any place of the page before, even a full one.

Main statement: `Device.frontier_ascends`.
-/

namespace RingLog

variable {g : Geometry}

/-! ## The order of positions -/

namespace Position

variable {pageSize : Nat} {n m : UInt16} {i j : Nat}

/-- Positions are in the order of the page numbers, and on a page in that of the indices. -/
theorem of_lt_of (hsize : pageSize ≤ 65536) (hi : i < pageSize) (hj : j < pageSize) :
    of n pageSize i < of m pageSize j ↔ n < m ∨ n = m ∧ i < j := by
  have hposition : of n pageSize i < of m pageSize j ↔
      n.toNat * pageSize + i < m.toNat * pageSize + j := by
    rw [← toNat_of hsize hi, ← toNat_of hsize hj]
    exact UInt32.lt_iff_toNat_lt
  have hnumber : n = m ↔ n.toNat = m.toNat := UInt16.toNat_inj.symm
  rw [hposition, hnumber, UInt16.lt_iff_toNat_lt]
  -- a later page begins at least one page size further on
  have hstep : ∀ a b : Nat, a < b → a * pageSize + pageSize ≤ b * pageSize := by
    intro a b hlt
    rw [← Nat.succ_mul]
    exact Nat.mul_le_mul_right _ hlt
  rcases Nat.lt_trichotomy n.toNat m.toNat with hlt | heq | hgt
  · have := hstep _ _ hlt
    constructor <;> intro _ <;> omega
  · rw [heq]
    omega
  · have := hstep _ _ hgt
    constructor <;> intro _ <;> omega

theorem of_eq_of (hsize : pageSize ≤ 65536) (hi : i < pageSize) (hj : j < pageSize) :
    of n pageSize i = of m pageSize j ↔ n = m ∧ i = j := by
  refine ⟨fun heq => ?_, fun ⟨hnumber, hindex⟩ => by rw [hnumber, hindex]⟩
  have hirrefl : ¬of m pageSize j < of m pageSize j := UInt32.lt_irrefl _
  have hle : ¬of n pageSize i < of m pageSize j := heq ▸ hirrefl
  have hge : ¬of m pageSize j < of n pageSize i := heq ▸ hirrefl
  rw [of_lt_of hsize hi hj] at hle
  rw [of_lt_of hsize hj hi] at hge
  rw [UInt16.lt_iff_toNat_lt, ← UInt16.toNat_inj] at hle hge
  rw [← UInt16.toNat_inj]
  omega

end Position

/-! ## Histories that go on -/

/-- The action goes on with the next page. -/
def Action.rotates : Action → Bool
  | perform _ .rotate => true
  | boot _ _ | perform _ (.append _) | perform _ .anchor | perform _ .eraseAll => false

/-- The action gives up what the log holds. -/
def Action.erases : Action → Bool
  | perform _ .eraseAll => true
  | boot _ _ | perform _ (.append _) | perform _ .anchor | perform _ .rotate => false

namespace History

variable {history history' history'' : History} {turns more : Nat}

theorem length_entries (g : Geometry) (history : History) : (history.entries g).length =
    (history.earlier.reverse.flatMap (Leaf.entries g)).length + history.last.words.length := by
  simp [entries, leaves, Leaf.entries]

/-- `history'` goes on from `history` with so many new leaves. Without a new one, the words that
came are on the last one. -/
structure Grows (g : Geometry) (history history' : History) (turns : Nat) : Prop where
  number_eq : history'.last.number = history.last.number + UInt16.ofNat turns
  length_le : turns = 0 → history.last.words.length ≤ history'.last.words.length
  length_eq : turns = 0 → history'.last.words.length + (history.entries g).length =
    history.last.words.length + (history'.entries g).length

theorem Grows.refl (g : Geometry) (history : History) : history.Grows g history 0 where
  number_eq := (UInt16.add_zero _).symm
  length_le _ := Nat.le_refl _
  length_eq _ := rfl

theorem Grows.trans (h : history.Grows g history' turns) (h' : history'.Grows g history'' more) :
    history.Grows g history'' (turns + more) where
  number_eq := by rw [h'.number_eq, h.number_eq, UInt16.ofNat_add, UInt16.add_assoc]
  length_le hzero := Nat.le_trans (h.length_le (by omega)) (h'.length_le (by omega))
  length_eq hzero := by
    have hfirst := h.length_eq (by omega)
    have hsecond := h'.length_eq (by omega)
    omega

theorem grows_write (g : Geometry) (history : History) (words : List Word) (reference : Instant) :
    history.Grows g (history.write g words reference) 0 where
  number_eq := by
    rw [write, Leaf.addAll_eq]
    exact (UInt16.add_zero _).symm
  length_le _ := by
    rw [write, Leaf.addAll_eq, List.length_append]
    exact Nat.le_add_right _ _
  length_eq _ := by
    rw [length_entries, length_entries, write]
    dsimp only
    omega

theorem grows_append (g : Geometry) (history : History) (now : Instant) (word : Word) :
    history.Grows g (history.append g now word) 0 := by
  unfold append
  dsimp only
  split
  · exact grows_write ..
  · split <;> exact grows_write ..

theorem grows_rotate (g : Geometry) (history : History) (now : Instant) :
    history.Grows g (history.rotate g now) 1 where
  number_eq := rfl
  length_le hzero := absurd hzero Nat.one_ne_zero
  length_eq hzero := absurd hzero Nat.one_ne_zero

/-- A rotation begins one leaf, every other action but an erasure none. -/
theorem grows_act (g : Geometry) (history : History) {action : Action}
    (hkeeps : action.erases = false) :
    history.Grows g (history.act g action) action.rotates.toNat := by
  cases action with
  | boot config now =>
    have hgrows := grows_write g history [anchorWord now] (.ofSeconds now.seconds)
    exact ⟨hgrows.number_eq, hgrows.length_le, hgrows.length_eq⟩
  | perform now operation =>
    cases operation with
    | append word => exact grows_append g history now word
    | anchor => exact grows_write ..
    | rotate => exact grows_rotate ..
    | eraseAll => cases hkeeps

theorem grows_actAll (g : Geometry) (history : History) {actions : List Action}
    (hkeep : ∀ action ∈ actions, action.erases = false) :
    history.Grows g (history.actAll g actions) (actions.countP Action.rotates) := by
  induction actions generalizing history with
  | nil => exact .refl g history
  | cons action rest ih =>
    have hfirst := grows_act g history (hkeep action List.mem_cons_self)
    have hrest := ih (history.act g action) fun other hother =>
      hkeep other (List.mem_cons_of_mem _ hother)
    have hcount : (action :: rest).countP Action.rotates =
        action.rotates.toNat + rest.countP Action.rotates := by
      rw [List.countP_cons, Nat.add_comm]
      cases action.rotates <;> rfl
    rw [hcount]
    exact hfirst.trans hrest

end History

/-! ## The frontier -/

namespace Log

variable {log log' : Log g} {history history' : History} {turns : Nat}

/-- The next record goes behind the words of the last leaf. -/
theorem Recalls.position_frontier (h : log.Recalls history) :
    history.last.words.length < g.pageSize ∧ (log.frontier.position g).value.toNat =
      history.last.number.toNat * g.pageSize + history.last.words.length := by
  have hring := h.shows.onRing
  obtain ⟨hpage, hwords⟩ := h.shows.last
  have hused : log.used = history.last.words.length := by rw [hring.used_eq, hwords]
  have hnumber : log.page.number = history.last.number := congrArg Page.number hpage
  have hlt : log.used < g.pageSize := by
    have hle := log.used_le
    have hpos := hring.holds.fits.headerSize_pos
    have hsize := hring.holds.fits.headerSize_lt
    rw [Page.capacity] at hle
    omega
  rw [hused] at hlt
  refine ⟨hlt, ?_⟩
  rw [frontier, Cursor.position, Page.position, hused, hnumber,
    Position.toNat_of log.fits.pageSize_le hlt]

/-- No place of the log lies beyond its page. -/
theorem Recalls.index_lt (h : log.Recalls history) {place : Cursor}
    (hplace : Cursor.Visits log.medium log.frontier log.oldest place) :
    place.index < g.pageSize := by
  rcases (log.visits_oldest place).mp hplace with ⟨-, hindex⟩ | ⟨-, hindex⟩
  · have hle := Page.length_stored_le log.medium place.page
    rw [Page.capacity] at hle
    omega
  · have hle := log.used_le
    have hpos := h.shows.onRing.holds.fits.headerSize_pos
    have hsize := h.shows.onRing.holds.fits.headerSize_lt
    rw [Page.capacity] at hle
    omega

/-- Between two moments of the log without a new page the frontier has moved on by one for each
word; with a new one, it has moved on in any case. -/
theorem Recalls.frontier_grows (h : log.Recalls history) (h' : log'.Recalls history')
    (hgrows : history.Grows g history' turns)
    (hnumber : history.last.number.toNat + turns < 65536) :
    log'.page.number.toNat = log.page.number.toNat + turns ∧
      log.frontier.position g ≤ log'.frontier.position g ∧
      (turns = 0 → (log'.frontier.position g).value.toNat + log.entries.length =
        (log.frontier.position g).value.toNat + log'.entries.length) ∧
      (0 < turns → log.frontier.position g < log'.frontier.position g) := by
  have hlast : log.page.number = history.last.number := congrArg Page.number h.shows.last.1
  have hlast' : log'.page.number = history'.last.number := congrArg Page.number h'.shows.last.1
  have hsum : history'.last.number.toNat = history.last.number.toNat + turns := by
    rw [hgrows.number_eq, UInt16.toNat_add, UInt16.toNat_ofNat']
    omega
  obtain ⟨hlt, hposition⟩ := h.position_frontier
  obtain ⟨-, hposition'⟩ := h'.position_frontier
  have hturned : 0 < turns → (log.frontier.position g).value.toNat <
      (log'.frontier.position g).value.toNat := by
    intro hpos
    have hmul := Nat.mul_le_mul_right g.pageSize
      (show history.last.number.toNat + 1 ≤ history'.last.number.toNat by omega)
    rw [Nat.succ_mul] at hmul
    omega
  refine ⟨by rw [hlast', hlast, hsum], ?_, fun hzero => ?_, fun hpos => ?_⟩
  · refine UInt32.le_iff_toNat_le.mpr ?_
    rcases Nat.eq_zero_or_pos turns with hzero | hpos
    · have hle := hgrows.length_le hzero
      rw [hposition, hposition', hsum, hzero, Nat.add_zero]
      omega
    · exact Nat.le_of_lt (hturned hpos)
  · have hcount : log.entries.length = (history.entries g).length := by
      rw [← List.length_map, h.shows.entries_eq]
      rfl
    have hcount' : log'.entries.length = (history'.entries g).length := by
      rw [← List.length_map, h'.shows.entries_eq]
      rfl
    have hgrown := hgrows.length_eq hzero
    rw [hposition, hposition', hcount, hcount', hsum, hzero, Nat.add_zero]
    omega
  · exact UInt32.lt_iff_toNat_lt.mpr (hturned hpos)

end Log

namespace Device

/-- On every geometry that is accepted positions do not wrap, and they are ordered as page number
and index are; so two cursors agree just when both of these do.

A device that is opened on a blank medium and used without erasing the log, opened again now and
then, counts its rotations in the page number. As long as that does not wrap, the frontier never
moves back: it moves on by one for each word that its page takes, and with every rotation. No
cursor of the log stands beyond its page. -/
theorem frontier_ascends {config : Config} (accepted : config.fault? g = none) :
    (∀ (n m : UInt16) (i j : Nat), i < g.pageSize → j < g.pageSize →
      (Position.of n g.pageSize i).value.toNat = n.toNat * g.pageSize + i ∧
      (Position.of n g.pageSize i < Position.of m g.pageSize j ↔ n < m ∨ n = m ∧ i < j)) ∧
    (∀ cursor other : Cursor, cursor.index < g.pageSize → other.index < g.pageSize →
      (cursor.agrees g other = true ↔
        cursor.page.number = other.page.number ∧ cursor.index = other.index)) ∧
    (g.pages < 65536 → ∀ (now : Instant) (before after : List Action),
      (∀ action ∈ before ++ after, action.Regular g ∧ action.erases = false) →
      (before ++ after).countP Action.rotates < 65536 →
      ∃ log log', (new g).actAll (.boot config now :: before) = running log ∧
        (new g).actAll (.boot config now :: (before ++ after)) = running log' ∧
        log.page.number.toNat = before.countP Action.rotates ∧
        log.frontier.position g ≤ log'.frontier.position g ∧
        (after.countP Action.rotates = 0 →
          (log'.frontier.position g).value.toNat + log.entries.length =
            (log.frontier.position g).value.toNat + log'.entries.length) ∧
        (0 < after.countP Action.rotates →
          log.frontier.position g < log'.frontier.position g) ∧
        ∀ place, Cursor.Visits log.medium log.frontier log.oldest place →
          place.index < g.pageSize) := by
  have hsize := (Config.requirements_of_accepted accepted).2.2.1
  refine ⟨fun n m i j hi hj => ⟨Position.toNat_of hsize hi, Position.of_lt_of hsize hi hj⟩,
    fun cursor other hcursor hother => ?_,
    fun hpages now before after hactions hcount => ?_⟩
  · rw [Cursor.agrees, beq_iff_eq]
    exact Position.of_eq_of hsize hcursor hother
  · have hregular : ∀ action ∈ before ++ after, action.Regular g :=
      fun action haction => (hactions action haction).1
    obtain ⟨log₀, hboot, hstart⟩ := recalls_start hpages accepted now
    obtain ⟨log, hlog, hrecalls⟩ := recalls_actAll hstart hpages fun action haction =>
      hregular action (List.mem_append_left _ haction)
    obtain ⟨log', hlog', hrecalls'⟩ := recalls_actAll hrecalls hpages fun action haction =>
      hregular action (List.mem_append_right _ haction)
    have hbefore := History.grows_actAll g (.start config.headerSize now) fun action haction =>
      (hactions action (List.mem_append_left after haction)).2
    have hafter := History.grows_actAll g ((History.start config.headerSize now).actAll g before)
      fun action haction => (hactions action (List.mem_append_right before haction)).2
    rw [List.countP_append] at hcount
    have hzero : (History.start config.headerSize now).last.number.toNat = 0 := rfl
    obtain ⟨hnumber, -⟩ := hstart.frontier_grows hrecalls hbefore (by omega)
    have hfirst : log₀.page.number = 0 := congrArg Page.number hstart.shows.last.1
    have hlast : log.page.number =
        ((History.start config.headerSize now).actAll g before).last.number :=
      congrArg Page.number hrecalls.shows.last.1
    rw [hfirst, UInt16.toNat_zero, Nat.zero_add] at hnumber
    obtain ⟨-, hle, heq, hlt⟩ :=
      hrecalls.frontier_grows hrecalls' hafter (by rw [← hlast, hnumber]; exact hcount)
    refine ⟨log, log', ?_, ?_, hnumber, hle, heq, hlt, fun place => hrecalls.index_lt⟩
    · rw [actAll, List.foldl_cons, hboot]
      exact hlog
    · rw [actAll, List.foldl_cons, hboot, ← actAll, actAll_append, hlog]
      exact hlog'

/-- The first page is full and one word was dropped when it is left: the frontier goes from the
place behind that page, position three, to the place behind the anchor of the next one. -/
theorem frontier_ascends_full_page :
    let before : List Action :=
      [.perform ⟨0⟩ (.append 7), .perform ⟨0⟩ (.append 8), .perform ⟨0⟩ (.append 9)]
    let after : List Action := [.perform ⟨0⟩ .rotate]
    (∀ action ∈ before ++ after, action.Regular ⟨2, 4⟩ ∧ action.erases = false) ∧
      (before ++ after).countP Action.rotates < 65536 ∧
      ∃ log log', (new ⟨2, 4⟩).actAll (.boot ⟨0, 1⟩ ⟨0⟩ :: before) = running log ∧
        (new ⟨2, 4⟩).actAll (.boot ⟨0, 1⟩ ⟨0⟩ :: (before ++ after)) = running log' ∧
        log.used = log.page.capacity ⟨2, 4⟩ ∧ log.dropped = 1 ∧
        (log.frontier.position ⟨2, 4⟩).value = 3 ∧
        log.frontier.position ⟨2, 4⟩ < log'.frontier.position ⟨2, 4⟩ := by
  intro before after
  have hactions : ∀ action ∈ before ++ after, action.Regular ⟨2, 4⟩ ∧ action.erases = false := by
    decide
  have haccepted : (⟨0, 1⟩ : Config).fault? ⟨2, 4⟩ = none := by decide
  obtain ⟨-, -, hascends⟩ := frontier_ascends haccepted
  obtain ⟨log, log', hlog, hlog', -, -, -, hturned, -⟩ :=
    hascends (by decide) ⟨0⟩ before after hactions (by decide)
  obtain ⟨full, hfull, hused, hdropped, hposition⟩ : ∃ log,
      (new ⟨2, 4⟩).actAll (.boot ⟨0, 1⟩ ⟨0⟩ :: before) = running log ∧
      log.used = log.page.capacity ⟨2, 4⟩ ∧ log.dropped = 1 ∧
      (log.frontier.position ⟨2, 4⟩).value = 3 :=
    ⟨_, rfl, by decide +kernel, by decide +kernel, by decide +kernel⟩
  rw [hlog] at hfull
  cases hfull
  exact ⟨hactions, by decide, log, log', hlog, hlog', hused, hdropped, hposition,
    hturned (by decide)⟩

end Device

end RingLog
