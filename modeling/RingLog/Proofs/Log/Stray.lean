import RingLog.Proofs.Console.Session
import RingLog.Proofs.Log.Entries
import RingLog.Proofs.Log.Standing
import RingLog.Proofs.Ring.Age

/-!
# Cursors of recycled pages

A cursor may be left with a page that its slot does not hold any more. What it reads in the slot
then depends on how far into the slot it stands (`Cursor.offset`), and no longer on number and
index. From the next slot on it reads what any other cursor would. Only the numbers that it counts
differ, by as much as they did in the first slot, until it comes to the page being written and takes
over the frontier's view.

Main statements: `Log.OnWay.step` and `Log.OnWay.reads`, a cursor on its way reads the words that
are left in its slot and all those behind; `Log.OnWay.isBehind_iff`, whether it looks lapped.
-/

namespace RingLog

variable {g : Geometry}

namespace Cursor

variable {medium : Medium g} {cursor frontier : Cursor}

/-! ## What is left in a slot -/

/-- The cursor is in a slot of the ring, behind the first word of it. -/
structure Valid (g : Geometry) (cursor : Cursor) : Prop where
  slot_lt : cursor.page.slot < g.pages
  headerSize_pos : 0 < cursor.page.headerSize.toNat

/-- How far into its slot the cursor stands. -/
def offset (cursor : Cursor) : Nat :=
  cursor.page.headerSize.toNat + cursor.index

/-- The words that a cursor finds in its slot, whatever page it came with. -/
def wordsLeft (medium : Medium g) (cursor : Cursor) : List Word :=
  let start := (Page.load medium cursor.page.slot).headerSize.toNat
  if cursor.offset < start then []
  else (medium.wordsAt cursor.page.slot).drop (cursor.offset - start)

theorem value_eq (hvalid : cursor.Valid g) (hfilled : medium.Filled cursor.page.slot) :
    cursor.value medium = (cursor.wordsLeft medium).head?.getD Word.erased := by
  have hpos := hvalid.headerSize_pos
  have hsize := hfilled.fits.headerSize_lt
  have hlength := hfilled.length_le
  have hread := hfilled.read_eq cursor.offset
  have hslot : (Page.load medium cursor.page.slot).slot = cursor.page.slot := rfl
  rw [hslot, Page.image, if_neg (by simp only [offset, Header.offset]; omega)] at hread
  unfold Page.capacity at hlength
  unfold value Page.read wordsLeft
  dsimp only
  split
  · rw [← offset, hread]
    split
    · rfl
    · rw [List.head?_drop]
  · rename_i hindex
    rw [Page.capacity] at hindex
    split
    · rfl
    · rw [List.drop_of_length_le]
      · rfl
      · simp only [offset]
        omega

theorem value_eq_erased_iff (hvalid : cursor.Valid g) (hfilled : medium.Filled cursor.page.slot) :
    cursor.value medium = Word.erased ↔ cursor.wordsLeft medium = [] := by
  rw [value_eq hvalid hfilled]
  constructor
  · intro herased
    cases hleft : cursor.wordsLeft medium with
    | nil => rfl
    | cons word rest =>
      rw [hleft] at herased
      have hmem : word ∈ cursor.wordsLeft medium := hleft ▸ List.mem_cons_self
      have hstored : word ∈ medium.wordsAt cursor.page.slot := by
        unfold wordsLeft at hmem
        dsimp only at hmem
        split at hmem
        · cases hmem
        · exact List.mem_of_mem_drop hmem
      have heq : word = Word.erased := herased
      exact absurd (heq ▸ hstored) hfilled.not_mem
  · intro hleft
    rw [hleft]
    rfl

/-- Before the first word that is left, one step leaves the others. -/
theorem wordsLeft_succ (hleft : cursor.wordsLeft medium ≠ []) :
    wordsLeft medium ⟨cursor.page, cursor.index + 1⟩ = (cursor.wordsLeft medium).tail := by
  have hnext : offset ⟨cursor.page, cursor.index + 1⟩ = cursor.offset + 1 := rfl
  unfold wordsLeft at hleft ⊢
  rw [hnext]
  dsimp only at hleft ⊢
  by_cases hstart : cursor.offset < (Page.load medium cursor.page.slot).headerSize.toNat
  · exact absurd (if_pos hstart) hleft
  · rw [if_neg hstart, if_neg (by omega), List.tail_drop, Nat.sub_add_comm (by omega)]

/-- A cursor with the header size of its slot leaves out the words before its index. -/
theorem wordsLeft_of_headerSize
    (hsize : cursor.page.headerSize = (Page.load medium cursor.page.slot).headerSize) :
    cursor.wordsLeft medium = (medium.wordsAt cursor.page.slot).drop cursor.index := by
  rw [wordsLeft, offset, ← hsize, if_neg (by omega), Nat.add_sub_cancel_left]

/-- A cursor finds a word just when it stands at one of them. -/
theorem wordsLeft_ne_nil_iff : cursor.wordsLeft medium ≠ [] ↔
    (Page.load medium cursor.page.slot).headerSize.toNat ≤ cursor.offset ∧
      cursor.offset < (Page.load medium cursor.page.slot).headerSize.toNat +
        (medium.wordsAt cursor.page.slot).length := by
  rw [← List.length_pos_iff]
  unfold wordsLeft
  dsimp only
  split
  · rw [List.length_nil]
    omega
  · rw [List.length_drop]
    omega

theorem length_wordsLeft_le (medium : Medium g) (cursor : Cursor) :
    (cursor.wordsLeft medium).length ≤ (medium.wordsAt cursor.page.slot).length := by
  unfold wordsLeft
  dsimp only
  split
  · exact Nat.zero_le _
  · rw [List.length_drop]
    exact Nat.sub_le _ _

/-- A cursor finds all words just when it stands before the first of them. -/
theorem wordsLeft_eq_iff (hwords : medium.wordsAt cursor.page.slot ≠ []) :
    cursor.wordsLeft medium = medium.wordsAt cursor.page.slot ↔
      cursor.offset = (Page.load medium cursor.page.slot).headerSize.toNat := by
  have hpos := List.length_pos_iff.mpr hwords
  unfold wordsLeft
  dsimp only
  constructor
  · intro heq
    split at heq
    · exact absurd heq.symm hwords
    · have hlength := congrArg List.length heq
      rw [List.length_drop] at hlength
      omega
  · intro heq
    rw [heq, if_neg (Nat.lt_irrefl _), Nat.sub_self, List.drop_zero]

/-- Numbers that are counted on from a page look older than it behind the half of all numbers. -/
theorem isBehind_of_lead {cursor other : Cursor} {lead : Nat} (hlead : lead < 65536)
    (hnumber : cursor.page.number = other.page.number + UInt16.ofNat lead) :
    cursor.isBehind other = decide (32768 < lead) := by
  rw [Bool.eq_iff_iff, isBehind_iff_lag, hnumber, decide_eq_true_eq]
  simp only [UInt16.toNat_sub, UInt16.toNat_add, UInt16.toNat_ofNat']
  omega

end Cursor

namespace Log

variable {log : Log g} {cursor place : Cursor} {page : Page} {slot reach : Nat}

/-! ## What is left in the log -/

/-- The words in the slots from this one on, up to the page being written. -/
def wordsFrom (log : Log g) (slot : Nat) : List Word :=
  (log.entriesFrom (Page.load log.medium slot)).map Entry.word

/-- The words left in the cursor's slot and those in the slots behind. -/
def upcoming (log : Log g) (cursor : Cursor) : List Word :=
  cursor.wordsLeft log.medium ++
    if cursor.page.slot = log.page.slot then [] else log.wordsFrom (g.next cursor.page.slot)

theorem map_word_entriesAt (log : Log g) (slot : Nat) :
    (log.medium.entriesAt slot).map Entry.word = log.medium.wordsAt slot :=
  Page.map_word_entries ..

theorem InStep.wordsFrom_active (h : log.InStep) :
    log.wordsFrom log.page.slot = log.medium.wordsAt log.page.slot := by
  rw [wordsFrom, h.entriesFrom_active, map_word_entriesAt]

theorem wordsFrom_of_ne (hfull : log.medium.FullRing log.page) (hslot : slot < g.pages)
    (hne : slot ≠ log.page.slot) :
    log.wordsFrom slot = log.medium.wordsAt slot ++ log.wordsFrom (g.next slot) := by
  rw [wordsFrom, entriesFrom_next hfull hslot hne, List.map_append, map_word_entriesAt]
  rfl

/-- At the start of a page of its slot a cursor has all words of the slot before it. -/
theorem upcoming_start (hstep : log.InStep) (hfull : log.medium.FullRing log.page)
    (hslot : page.slot < g.pages)
    (hsize : page.headerSize = (Page.load log.medium page.slot).headerSize) :
    log.upcoming ⟨page, 0⟩ = log.wordsFrom page.slot := by
  have hleft : Cursor.wordsLeft log.medium ⟨page, 0⟩ = log.medium.wordsAt page.slot :=
    Cursor.wordsLeft_of_headerSize hsize
  rw [upcoming, hleft]
  dsimp only
  split
  · rename_i hactive
    rw [List.append_nil, hactive, hstep.wordsFrom_active]
  · rename_i hne
    rw [wordsFrom_of_ne hfull hslot hne]

/-- On the page being written a cursor has the words from its index on before it. -/
theorem upcoming_active (hfull : log.medium.FullRing log.page) (index : Nat) :
    log.upcoming ⟨log.page, index⟩ = (log.medium.wordsAt log.page.slot).drop index := by
  have hleft : Cursor.wordsLeft log.medium ⟨log.page, index⟩ = _ :=
    Cursor.wordsLeft_of_headerSize (by rw [hfull.load_eq])
  rw [upcoming, hleft, if_pos rfl, List.append_nil]

/-! ## On the way to the frontier -/

/-- A place that a cursor comes to: before a word in an older slot, with a number that is counted on
from that of the oldest page and would be counted on to `reach`; or on the page being written. -/
inductive OnWay (log : Log g) (reach : Nat) (place : Cursor) : Prop
  | older {lead : Nat} (hvalid : place.Valid g) (hne : place.page.slot ≠ log.page.slot)
      (hleft : place.wordsLeft log.medium ≠ [])
      (hnumber : place.page.number = log.oldest.page.number + UInt16.ofNat lead)
      (hlead : lead + g.distance place.page.slot log.page.slot = reach)
  | active (hpage : place.page = log.page) (hindex : place.index ≤ log.used)

/-- A cursor of any page that settles is on its way, and has lost no word. -/
theorem onWay_settle (hstep : log.InStep) (hfull : log.medium.FullRing log.page)
    (hvalid : cursor.Valid g) (hne : cursor.page.slot ≠ log.page.slot) {lead : Nat}
    (hnumber : cursor.page.number = log.oldest.page.number + UInt16.ofNat lead)
    (hlead : lead + g.distance cursor.page.slot log.page.slot = reach) :
    log.OnWay reach (cursor.settle log.medium log.frontier) ∧
      log.upcoming (cursor.settle log.medium log.frontier) = log.upcoming cursor := by
  -- induction on the distance to the page being written, whose view the cursor takes over
  induction hhops : g.distance cursor.page.slot log.page.slot generalizing cursor lead with
  | zero => exact absurd ((Geometry.distance_eq_zero hvalid.slot_lt).mp hhops) hne
  | succ hops ih =>
    have hvalue := Cursor.value_eq_erased_iff hvalid (hfull.inTurn _ hvalid.slot_lt).1
    by_cases hleft : cursor.wordsLeft log.medium = []
    · have hnext := Geometry.distance_next hvalid.slot_lt log.slot_lt hne
      have hlt : g.next cursor.page.slot < g.pages := Geometry.next_lt log.pages_pos
      have hupcoming : log.upcoming cursor = log.wordsFrom (g.next cursor.page.slot) := by
        rw [upcoming, hleft, if_neg hne, List.nil_append]
      have hslot : (cursor.page.next log.medium).slot = g.next cursor.page.slot := rfl
      have hfrontier : log.frontier.page = log.page := rfl
      rw [Cursor.settle_of_value_eq (hvalue.mpr hleft) hvalid.slot_lt log.slot_lt hne,
        Cursor.turnPage, hupcoming, hfrontier]
      by_cases hactive : g.next cursor.page.slot = log.page.slot
      · have hsize : log.page.headerSize = (Page.load log.medium log.page.slot).headerSize := by
          rw [hfull.load_eq]
        rw [if_pos (hslot.trans hactive)]
        refine ⟨?_, ?_⟩
        · rw [log.settle_active]
          exact .active rfl (Nat.zero_le _)
        · rw [log.settle_active, upcoming_start hstep hfull log.slot_lt hsize, hactive]
      · have hpage : Cursor.Valid g ⟨cursor.page.next log.medium, 0⟩ :=
          ⟨hlt, (hfull.inTurn _ hlt).1.fits.headerSize_pos⟩
        have hcount : (cursor.page.next log.medium).number =
            log.oldest.page.number + UInt16.ofNat (lead + 1) := by
          rw [Page.next, hnumber, UInt16.ofNat_add, UInt16.add_assoc]
          rfl
        rw [if_neg fun h => hactive (hslot.symm.trans h)]
        obtain ⟨hway, hsame⟩ :=
          ih hpage hactive hcount (by rw [hslot]; omega) (by rw [hslot]; omega)
        exact ⟨hway, hsame.trans (upcoming_start hstep hfull hlt rfl)⟩
    · rw [Cursor.settle_of_value_ne (hvalue.not.mpr hleft)]
      exact ⟨.older hvalid hne hleft hnumber hlead, rfl⟩

theorem OnWay.settle_eq (h : log.OnWay reach place) (hfull : log.medium.FullRing log.page) :
    place.settle log.medium log.frontier = place := by
  cases h with
  | older hvalid hne hleft hnumber hlead =>
    have hvalue := Cursor.value_eq_erased_iff hvalid (hfull.inTurn _ hvalid.slot_lt).1
    exact Cursor.settle_of_value_ne (hvalue.not.mpr hleft)
  | active hpage hindex =>
    obtain ⟨page, index⟩ := place
    cases hpage
    exact log.settle_active index

/-- On its way a cursor is at the frontier, or it stands at the first of the words to come. -/
theorem OnWay.step (h : log.OnWay reach place) (hstep : log.InStep)
    (hfull : log.medium.FullRing log.page) :
    (place.reached log.frontier = true ∧ log.upcoming place = []) ∨
      (place.reached log.frontier = false ∧
        log.OnWay reach (place.advance log.medium log.frontier) ∧ log.upcoming place =
          place.value log.medium :: log.upcoming (place.advance log.medium log.frontier)) := by
  cases h with
  | older hvalid hne hleft hnumber hlead =>
    have hreached : place.reached log.frontier = false := by
      rw [Cursor.reached, frontier, beq_eq_false_iff_ne.mpr hne, Bool.false_and]
    have hnext : Cursor.Valid g ⟨place.page, place.index + 1⟩ :=
      ⟨hvalid.slot_lt, hvalid.headerSize_pos⟩
    obtain ⟨hway, hsame⟩ := onWay_settle hstep hfull hnext hne hnumber hlead
    have hvalue := Cursor.value_eq hvalid (hfull.inTurn _ hvalid.slot_lt).1
    refine .inr ⟨hreached, ?_, ?_⟩
    · rw [Cursor.advance, hreached, if_neg Bool.false_ne_true]
      exact hway
    · rw [Cursor.advance, hreached, if_neg Bool.false_ne_true, hsame, upcoming, upcoming,
        Cursor.wordsLeft_succ hleft, hvalue]
      obtain ⟨word, rest, hwords⟩ := List.exists_cons_of_ne_nil hleft
      rw [hwords]
      rfl
  | active hpage hindex =>
    obtain ⟨page, index⟩ := place
    cases hpage
    have hused := hstep.used_eq
    rw [reached_active]
    by_cases hend : log.used ≤ index
    · refine .inl ⟨decide_eq_true hend, ?_⟩
      rw [upcoming_active hfull, List.drop_of_length_le (by omega)]
    · have hadvance : Cursor.advance log.medium ⟨log.page, index⟩ log.frontier =
          ⟨log.page, index + 1⟩ := by
        rw [Cursor.advance, reached_active, decide_eq_false hend, if_neg Bool.false_ne_true]
        exact log.settle_active _
      have hlt : index < (log.medium.wordsAt log.page.slot).length := by omega
      have hvalue : Cursor.value log.medium ⟨log.page, index⟩ =
          (log.medium.wordsAt log.page.slot)[index] := by
        rw [Cursor.value, hstep.holds.read_record, List.getElem?_eq_getElem hlt, Option.getD_some]
      refine .inr ⟨decide_eq_false hend, ?_, ?_⟩
      · rw [hadvance]
        exact .active rfl (by dsimp only; omega)
      · rw [hadvance, upcoming_active hfull, upcoming_active hfull, hvalue,
          List.drop_eq_getElem_cons hlt]

/-- On its way to the frontier a cursor reads the words to come. -/
theorem OnWay.reads (h : log.OnWay reach place) (hstep : log.InStep)
    (hfull : log.medium.FullRing log.page) :
    ∃ entries, Cursor.Reads log.medium log.frontier place entries ∧
      entries.map Entry.word = log.upcoming place := by
  -- induction on the words to come
  induction hwords : log.upcoming place generalizing place with
  | nil =>
    rcases h.step hstep hfull with ⟨hreached, -⟩ | ⟨-, -, hcons⟩
    · exact ⟨[], .stop hreached, rfl⟩
    · rw [hwords] at hcons
      cases hcons
  | cons word rest ih =>
    rcases h.step hstep hfull with ⟨-, hnil⟩ | ⟨hreached, hway, hcons⟩
    · rw [hwords] at hnil
      cases hnil
    · rw [hwords] at hcons
      obtain ⟨entries, hreads, hentries⟩ := ih hway (List.cons.inj hcons).2.symm
      refine ⟨_, .entry hreached hreads, ?_⟩
      rw [List.map_cons, hentries, (List.cons.inj hcons).1]
      rfl

/-- The places that a cursor comes to from a place on its way are on its way, too. -/
theorem OnWay.visits {other : Cursor} (h : log.OnWay reach place) (hstep : log.InStep)
    (hfull : log.medium.FullRing log.page)
    (hvisits : Cursor.Visits log.medium log.frontier place other) :
    log.OnWay reach other ∧ (log.upcoming other).length ≤ (log.upcoming place).length := by
  induction hvisits with
  | here => exact ⟨h, Nat.le_refl _⟩
  | onward hreached _ ih =>
    rcases h.step hstep hfull with ⟨hend, -⟩ | ⟨-, hway, hcons⟩
    · rw [hreached] at hend
      cases hend
    · obtain ⟨hother, hle⟩ := ih hway
      rw [hcons, List.length_cons]
      exact ⟨hother, by omega⟩

/-! ## Logs without a gap -/

/-- Every slot holds a page. From the oldest one on the pages have words, and before it none has. -/
structure Compact (log : Log g) : Prop where
  step : log.InStep
  full : log.medium.FullRing log.page
  oldest_lt : log.oldest.page.slot < g.pages
  load_oldest : Page.load log.medium log.oldest.page.slot = log.oldest.page
  words_ne : ∀ slot < g.pages, g.distance slot log.page.slot ≤
    g.distance log.oldest.page.slot log.page.slot → log.medium.wordsAt slot ≠ []
  words_eq : ∀ slot < g.pages, g.distance log.oldest.page.slot log.page.slot <
    g.distance slot log.page.slot → log.medium.wordsAt slot = []

theorem Shows.compact {leaves : List Leaf} (h : log.Shows leaves)
    (hwords : ∀ leaf ∈ leaves, leaf.words ≠ []) (hleaves : leaves ≠ []) : log.Compact := by
  have hstands := (stands_oldest h.onRing.toInStep h.full).1
  have hdistance := h.distance_oldest hwords hleaves
  refine ⟨h.onRing.toInStep, h.full, hstands.slot_lt, hstands.load_eq, ?_, ?_⟩
  · intro slot hslot hle
    have hlt : g.distance slot log.page.slot < leaves.length := by omega
    have hshows := h.shows slot hslot
    rw [List.getElem?_eq_getElem hlt] at hshows
    rw [hshows.2]
    exact hwords _ (List.getElem_mem hlt)
  · intro slot hslot hlt
    have hshows := h.shows slot hslot
    rw [List.getElem?_eq_none (by omega)] at hshows
    exact hshows

namespace Compact

theorem length_active (h : log.Compact) : (log.wordsFrom log.page.slot).length = log.used := by
  rw [h.step.wordsFrom_active, h.step.used_eq]

theorem used_pos (h : log.Compact) : 0 < log.used := by
  rw [h.step.used_eq]
  refine List.length_pos_iff.mpr (h.words_ne _ log.slot_lt ?_)
  rw [Geometry.distance_self]
  exact Nat.zero_le _

/-- Closer slots have fewer words from them on, as far as there are any. -/
theorem length_wordsFrom_lt (h : log.Compact) {other : Nat} (hslot : slot < g.pages)
    (hother : other < g.pages)
    (hlt : g.distance slot log.page.slot < g.distance other log.page.slot)
    (hle : g.distance other log.page.slot ≤ g.distance log.oldest.page.slot log.page.slot) :
    (log.wordsFrom slot).length < (log.wordsFrom other).length := by
  -- induction on the distance of the slot that is further away
  induction hhops : g.distance other log.page.slot generalizing other with
  | zero => omega
  | succ hops ih =>
    have hne : other ≠ log.page.slot := Geometry.ne_of_distance_eq_succ hhops
    have hnext := Geometry.distance_next hother log.slot_lt hne
    have hnextlt : g.next other < g.pages := Geometry.next_lt log.pages_pos
    have hwords := List.length_pos_iff.mpr (h.words_ne other hother hle)
    rw [wordsFrom_of_ne h.full hother hne, List.length_append]
    by_cases hsame : g.distance slot log.page.slot = g.distance (g.next other) log.page.slot
    · rw [Geometry.distance_left_inj hslot hnextlt hsame]
      omega
    · have := ih hnextlt (by omega) (by omega) (by omega)
      omega

/-- In front of the oldest page there are no words. -/
theorem wordsFrom_eq (h : log.Compact) (hslot : slot < g.pages)
    (hle : g.distance log.oldest.page.slot log.page.slot ≤ g.distance slot log.page.slot) :
    log.wordsFrom slot = log.wordsFrom log.oldest.page.slot := by
  -- induction on the distance to the page being written
  induction hhops : g.distance slot log.page.slot generalizing slot with
  | zero =>
    have hsame : g.distance slot log.page.slot =
        g.distance log.oldest.page.slot log.page.slot := by omega
    rw [Geometry.distance_left_inj hslot h.oldest_lt hsame]
  | succ hops ih =>
    have hne : slot ≠ log.page.slot := Geometry.ne_of_distance_eq_succ hhops
    have hnext := Geometry.distance_next hslot log.slot_lt hne
    have hnextlt : g.next slot < g.pages := Geometry.next_lt log.pages_pos
    by_cases hsame : g.distance slot log.page.slot =
        g.distance log.oldest.page.slot log.page.slot
    · rw [Geometry.distance_left_inj hslot h.oldest_lt hsame]
    · rw [wordsFrom_of_ne h.full hslot hne, h.words_eq slot hslot (by omega), List.nil_append]
      exact ih hnextlt (by omega) (by omega)

theorem map_word_entries (h : log.Compact) :
    log.entries.map Entry.word = log.wordsFrom log.oldest.page.slot := by
  have hdistance := Geometry.distance_next_self log.slot_lt log.two_le_pages
  have hlt := Geometry.distance_lt h.oldest_lt log.slot_lt
  rw [← h.wordsFrom_eq log.next_slot_lt (by omega), wordsFrom, ← log.entriesFrom_oldestPage,
    oldestPage]

theorem used_le_wordsFrom (h : log.Compact) (hslot : slot < g.pages)
    (hle : g.distance slot log.page.slot ≤ g.distance log.oldest.page.slot log.page.slot) :
    log.used ≤ (log.wordsFrom slot).length := by
  rw [← h.length_active]
  by_cases hactive : slot = log.page.slot
  · rw [hactive]
  · have hpos := Geometry.distance_pos hslot hactive
    rw [← Geometry.distance_self g log.page.slot] at hpos
    exact Nat.le_of_lt (h.length_wordsFrom_lt log.slot_lt hslot hpos hle)

/-- A cursor outside the slot being written has the whole log before it if its slot is in front of
the oldest one, or if it stands at the first word of that one. -/
theorem upcoming_eq_iff (h : log.Compact) (hslot : cursor.page.slot < g.pages)
    (hne : cursor.page.slot ≠ log.page.slot) :
    log.upcoming cursor = log.entries.map Entry.word ↔
      g.distance log.oldest.page.slot log.page.slot <
        g.distance cursor.page.slot log.page.slot ∨
      cursor.page.slot = log.oldest.page.slot ∧
        cursor.offset = log.oldest.page.headerSize.toNat := by
  have hnext := Geometry.distance_next hslot log.slot_lt hne
  have hnextlt : g.next cursor.page.slot < g.pages := Geometry.next_lt log.pages_pos
  have hupcoming : log.upcoming cursor =
      cursor.wordsLeft log.medium ++ log.wordsFrom (g.next cursor.page.slot) := by
    rw [upcoming, if_neg hne]
  rw [h.map_word_entries, hupcoming]
  rcases Nat.lt_trichotomy (g.distance cursor.page.slot log.page.slot)
      (g.distance log.oldest.page.slot log.page.slot) with hcloser | hsame | hfurther
  · -- the words of the oldest page are behind the cursor
    have hshort := h.length_wordsFrom_lt hslot h.oldest_lt hcloser (Nat.le_refl _)
    have hleft := cursor.length_wordsLeft_le log.medium
    rw [wordsFrom_of_ne h.full hslot hne, List.length_append] at hshort
    constructor
    · intro heq
      have hlength := congrArg List.length heq
      rw [List.length_append] at hlength
      omega
    · rintro (hlt | ⟨heq, -⟩)
      · omega
      · rw [heq] at hcloser
        exact absurd hcloser (Nat.lt_irrefl _)
  · have heq := Geometry.distance_left_inj hslot h.oldest_lt hsame
    have hwords := h.words_ne _ hslot (Nat.le_of_eq hsame)
    have hload : (Page.load log.medium cursor.page.slot).headerSize =
        log.oldest.page.headerSize := by
      rw [heq, h.load_oldest]
    rw [← heq, wordsFrom_of_ne h.full hslot hne, List.append_cancel_right_eq,
      Cursor.wordsLeft_eq_iff hwords, hload]
    simp
  · have hnone := h.words_eq _ hslot hfurther
    have hleft : cursor.wordsLeft log.medium = [] := by
      have hle := cursor.length_wordsLeft_le log.medium
      rw [hnone] at hle
      exact List.length_eq_zero_iff.mp (Nat.le_zero.mp hle)
    rw [hleft, List.nil_append, h.wordsFrom_eq hnextlt (by omega)]
    exact ⟨fun _ => .inl hfurther, fun _ => rfl⟩

end Compact

/-! ## Places that look lapped -/

/-- An older place on the way is on the ring, not in front of the oldest page. -/
theorem OnWay.distance_le (h : log.OnWay reach place) (hcompact : log.Compact)
    (hne : place.page.slot ≠ log.page.slot) :
    place.page.slot < g.pages ∧ 0 < (place.wordsLeft log.medium).length ∧
      g.distance place.page.slot log.page.slot ≤
        g.distance log.oldest.page.slot log.page.slot := by
  cases h with
  | older hvalid _ hleft _ _ =>
    have hpos := List.length_pos_iff.mpr hleft
    refine ⟨hvalid.slot_lt, hpos, Nat.le_of_not_lt fun hfurther => ?_⟩
    have hle := place.length_wordsLeft_le log.medium
    rw [hcompact.words_eq _ hvalid.slot_lt hfurther, List.length_nil] at hle
    omega
  | active hpage _ => exact absurd (congrArg Page.slot hpage) hne

/-- In an older slot there are more words to come than those of the page being written. -/
theorem OnWay.used_lt (h : log.OnWay reach place) (hcompact : log.Compact)
    (hne : place.page.slot ≠ log.page.slot) : log.used < (log.upcoming place).length := by
  obtain ⟨hslot, hpos, hle⟩ := h.distance_le hcompact hne
  have hnext := Geometry.distance_next hslot log.slot_lt hne
  have hnextlt : g.next place.page.slot < g.pages := Geometry.next_lt log.pages_pos
  have hused := hcompact.used_le_wordsFrom hnextlt (by omega)
  rw [upcoming, if_neg hne, List.length_append]
  omega

/-- A place looks lapped just when it lies in an older slot and its number has got too far. -/
theorem OnWay.isBehind_iff (h : log.OnWay reach place) (hcompact : log.Compact)
    (hpages : g.pages ≤ 32768) (hreach : reach < 65536) :
    place.isBehind log.oldest = true ↔ place.page.slot ≠ log.page.slot ∧
      32768 + g.distance place.page.slot log.page.slot < reach := by
  cases h with
  | older hvalid hne hleft hnumber hlead =>
    rw [Cursor.isBehind_of_lead (by omega) hnumber, decide_eq_true_eq]
    constructor
    · intro _
      exact ⟨hne, by omega⟩
    · rintro ⟨-, hfar⟩
      omega
  | active hpage hindex =>
    have hfrontier : Cursor.Visits log.medium log.frontier log.oldest place :=
      (log.visits_oldest place).mpr (.inr ⟨hpage, hindex⟩)
    have hage := log.inAge_iff.mp (log.inAge_of_fullRing hcompact.full hpages) place hfrontier
    rw [hage]
    constructor
    · intro hfalse
      cases hfalse
    · rintro ⟨hne, -⟩
      exact absurd (congrArg Page.slot hpage) hne

/-- With more words to come than the page being written has, a cursor comes to the slot before. -/
theorem OnWay.visits_last (h : log.OnWay reach place) (hcompact : log.Compact)
    (hwords : log.used < (log.upcoming place).length) :
    ∃ other, Cursor.Visits log.medium log.frontier place other ∧
      g.distance other.page.slot log.page.slot = 1 := by
  -- induction on the words to come
  induction hcount : (log.upcoming place).length generalizing place with
  | zero => omega
  | succ count ih =>
    have hne : place.page.slot ≠ log.page.slot := by
      intro hactive
      have hle := place.length_wordsLeft_le log.medium
      rw [hactive, ← hcompact.step.used_eq] at hle
      rw [upcoming, if_pos hactive, List.append_nil] at hwords
      omega
    obtain ⟨hslot, hpos, hle⟩ := h.distance_le hcompact hne
    have hnext := Geometry.distance_next hslot log.slot_lt hne
    by_cases hlast : g.distance place.page.slot log.page.slot = 1
    · exact ⟨place, .here _, hlast⟩
    · have hnextlt : g.next place.page.slot < g.pages := Geometry.next_lt log.pages_pos
      have hself := Geometry.distance_self g log.page.slot
      have hmore := hcompact.length_wordsFrom_lt log.slot_lt hnextlt (by omega) (by omega)
      have hupcoming : (log.upcoming place).length = (place.wordsLeft log.medium).length +
          (log.wordsFrom (g.next place.page.slot)).length := by
        rw [upcoming, if_neg hne, List.length_append]
      rw [hcompact.length_active] at hmore
      rcases h.step hcompact.step hcompact.full with ⟨-, hnil⟩ | ⟨hreached, hway, hcons⟩
      · rw [hnil] at hcount
        cases hcount
      · have hlength := congrArg List.length hcons
        rw [List.length_cons] at hlength
        obtain ⟨other, hvisits, hdistance⟩ := ih hway (by omega) (by omega)
        exact ⟨other, .onward hreached hvisits, hdistance⟩

/-- Behind the first place another one looks lapped just when there is more than one word to come
before the page being written, and the numbers get too far. -/
theorem OnWay.lapped_iff (h : log.OnWay reach place) (hcompact : log.Compact)
    (hpages : g.pages ≤ 32768) (hreach : reach < 65536)
    (hreached : place.reached log.frontier = false) :
    (∃ other, Cursor.Visits log.medium log.frontier (place.advance log.medium log.frontier) other ∧
        other.isBehind log.oldest = true) ↔
      log.used + 1 < (log.upcoming place).length ∧ 32769 < reach := by
  rcases h.step hcompact.step hcompact.full with ⟨hend, -⟩ | ⟨-, hnext, hcons⟩
  · rw [hreached] at hend
    cases hend
  · rw [hcons, List.length_cons]
    constructor
    · rintro ⟨other, hvisits, hlapped⟩
      obtain ⟨hother, hle⟩ := hnext.visits hcompact.step hcompact.full hvisits
      obtain ⟨hne, hfar⟩ := (hother.isBehind_iff hcompact hpages hreach).mp hlapped
      have hused := hother.used_lt hcompact hne
      have hpos := Geometry.distance_pos (hother.distance_le hcompact hne).1 hne
      exact ⟨by omega, by omega⟩
    · rintro ⟨hwords, hfar⟩
      obtain ⟨other, hvisits, hlast⟩ := hnext.visits_last hcompact (by omega)
      have hother := (hnext.visits hcompact.step hcompact.full hvisits).1
      have hne := Geometry.ne_of_distance_eq_succ hlast
      exact ⟨other, hvisits, (hother.isBehind_iff hcompact hpages hreach).mpr ⟨hne, by omega⟩⟩

end Log

end RingLog
