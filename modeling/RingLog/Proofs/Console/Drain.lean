import RingLog.Proofs.Log.Latch
import RingLog.Proofs.Log.Reader
import RingLog.Proofs.Log.Stray

/-!
# Readers behind an erasure

An erasure recycles all pages at once and numbers them anew from zero, so the number of a reader's
page says nothing any more about whether that page is still there. A reader that is not taken for a
lapped one goes on from its slot and offset in the new log. It gets the whole log if it stands
before the first record, or in a slot in front of it, and if the numbers that it counts on the way
do not make it look lapped in the middle (`Log.Covers`). Otherwise it misses records, or it starts
again and gets some of them twice.

Main statements: `Session.reports_iff_covers`, `Device.drained_iff` and `Device.not_drained`.
-/

namespace RingLog

variable {g : Geometry}

namespace Log

variable {log : Log g} {cursor : Cursor}

/-! ## Cursors that have the whole log before them -/

/-- The cursor is in a slot in front of the oldest page, or before the first record of that. In the
slot being written it stops at the index of the frontier, so there it has to count from zero. -/
def Precedes (log : Log g) (cursor : Cursor) : Prop :=
  g.distance log.oldest.page.slot log.page.slot < g.distance cursor.page.slot log.page.slot ∨
    cursor.page.slot = log.oldest.page.slot ∧
      cursor.offset = log.oldest.page.headerSize.toNat ∧
      (cursor.page.slot = log.page.slot → cursor.index = 0)

/-- The cursor does not come to look lapped on its way: there is at most one record to read before
the page being written, or the numbers that it counts stay close enough to that of the oldest
page. -/
def KeepsPace (log : Log g) (cursor : Cursor) : Prop :=
  log.entries.length ≤ log.used + 1 ∨
    (cursor.page.number - log.oldest.page.number).toNat +
      g.distance cursor.page.slot log.page.slot ≤ 32769

/-- A reader with the cursor gets the whole log: it looks lapped and starts again, or it stands
before all records and does not come to look lapped on its way. -/
def Covers (log : Log g) (cursor : Cursor) : Prop :=
  cursor.isBehind log.oldest = true ∨ log.Precedes cursor ∧ log.KeepsPace cursor

instance (log : Log g) (cursor : Cursor) : Decidable (log.Precedes cursor) :=
  inferInstanceAs (Decidable (_ ∨ _))

instance (log : Log g) (cursor : Cursor) : Decidable (log.KeepsPace cursor) :=
  inferInstanceAs (Decidable (_ ∨ _))

instance (log : Log g) (cursor : Cursor) : Decidable (log.Covers cursor) :=
  inferInstanceAs (Decidable (_ ∨ _))

/-! ## What there is to read in the slot being written -/

/-- What a cursor in the slot being written finds there, up to the index of the frontier. -/
def rest (log : Log g) (cursor : Cursor) : List Entry :=
  (List.range' cursor.index (log.used - cursor.index)).map fun index =>
    Cursor.entry log.medium ⟨cursor.page, index⟩

theorem map_word_rest (log : Log g) (cursor : Cursor) : (log.rest cursor).map Entry.word =
    (List.range' cursor.index (log.used - cursor.index)).map fun index =>
      Cursor.value log.medium ⟨cursor.page, index⟩ :=
  List.map_map

/-- All records are on the page being written just when that is the oldest page. -/
theorem Compact.length_entries_le_iff (h : log.Compact) :
    log.entries.length ≤ log.used ↔ log.oldest.page.slot = log.page.slot := by
  rw [← List.length_map Entry.word, h.map_word_entries]
  constructor
  · intro hle
    by_contra hne
    have hpos := Geometry.distance_pos h.oldest_lt hne
    have hlt := h.length_wordsFrom_lt log.slot_lt h.oldest_lt
      (by rwa [Geometry.distance_self]) (Nat.le_refl _)
    rw [h.length_active] at hlt
    omega
  · intro hsame
    rw [hsame, h.length_active]

/-- From index zero on, a cursor in the slot being written finds the words there just when it has
the header size of the page in the slot. -/
theorem Compact.rest_eq_wordsAt_iff (h : log.Compact) (hvalid : cursor.Valid g)
    (hslot : cursor.page.slot = log.page.slot) (hindex : cursor.index = 0) :
    (log.rest cursor).map Entry.word = log.medium.wordsAt cursor.page.slot ↔
      cursor.page.headerSize = (Page.load log.medium cursor.page.slot).headerSize := by
  have hpos := h.used_pos
  have hfilled := (h.full.inTurn _ hvalid.slot_lt).1
  have hused : (log.medium.wordsAt cursor.page.slot).length = log.used := by
    rw [hslot, h.step.used_eq]
  have hvalue : ∀ index, Cursor.value log.medium ⟨cursor.page, index⟩ =
      (Cursor.wordsLeft log.medium ⟨cursor.page, index⟩).head?.getD Word.erased := fun index =>
    Cursor.value_eq ⟨hvalid.slot_lt, hvalid.headerSize_pos⟩ hfilled
  rw [map_word_rest, hindex, Nat.sub_zero]
  constructor
  · intro hall
    -- no erased word is found, neither at the first place nor at the last one
    have hfound : ∀ index < log.used, Cursor.wordsLeft log.medium ⟨cursor.page, index⟩ ≠ [] := by
      intro index hlt hnil
      have hmem : Cursor.value log.medium ⟨cursor.page, index⟩ ∈
          log.medium.wordsAt cursor.page.slot := by
        rw [← hall]
        exact List.mem_map_of_mem (List.mem_range'_1.mpr ⟨by omega, by omega⟩)
      rw [hvalue, hnil] at hmem
      exact hfilled.not_mem hmem
    have hfirst := (Cursor.wordsLeft_ne_nil_iff.mp (hfound 0 hpos)).1
    have hlast := (Cursor.wordsLeft_ne_nil_iff.mp (hfound (log.used - 1) (by omega))).2
    rw [Cursor.offset] at hfirst hlast
    rw [← UInt8.toNat_inj]
    dsimp only at hfirst hlast
    omega
  · intro hsize
    refine List.ext_getElem (by rw [List.length_map, List.length_range', hused]) ?_
    intro index hlt hlt'
    have hleft : Cursor.wordsLeft log.medium ⟨cursor.page, index⟩ = _ :=
      Cursor.wordsLeft_of_headerSize hsize
    rw [List.getElem_map, List.getElem_range', hvalue, Nat.zero_add, Nat.one_mul, hleft,
      List.head?_drop, List.getElem?_eq_getElem hlt', Option.getD_some]

/-- A cursor in the slot being written finds the whole log just when that is all in this slot, and
the cursor stands before it. -/
theorem Compact.rest_eq_iff (h : log.Compact) (hvalid : cursor.Valid g)
    (hslot : cursor.page.slot = log.page.slot) :
    (log.rest cursor).map Entry.word = log.entries.map Entry.word ↔
      cursor.offset = log.oldest.page.headerSize.toNat ∧ cursor.index = 0 ∧
        log.page.slot = log.oldest.page.slot := by
  have hactive : log.wordsFrom log.page.slot = log.medium.wordsAt cursor.page.slot := by
    rw [h.step.wordsFrom_active, hslot]
  have hsize : log.page.slot = log.oldest.page.slot →
      (Page.load log.medium cursor.page.slot).headerSize = log.oldest.page.headerSize := by
    intro hsame
    rw [hslot, hsame, h.load_oldest]
  constructor
  · intro hall
    have hpos := h.used_pos
    have hle := h.used_le_wordsFrom h.oldest_lt (Nat.le_refl _)
    have hlength := congrArg List.length hall
    rw [rest, List.length_map, List.length_map, List.length_map, List.length_range'] at hlength
    rw [← h.map_word_entries, List.length_map] at hle
    have hindex : cursor.index = 0 := by omega
    have hsame := (h.length_entries_le_iff.mp (by omega)).symm
    rw [h.map_word_entries, ← hsame, hactive, h.rest_eq_wordsAt_iff hvalid hslot hindex] at hall
    exact ⟨by rw [Cursor.offset, hindex, Nat.add_zero, hall, hsize hsame], hindex, hsame⟩
  · rintro ⟨hoffset, hindex, hsame⟩
    rw [Cursor.offset, hindex, Nat.add_zero, UInt8.toNat_inj, ← hsize hsame] at hoffset
    rw [h.map_word_entries, ← hsame, hactive]
    exact (h.rest_eq_wordsAt_iff hvalid hslot hindex).mpr hoffset

end Log

namespace Session

variable {log : Log g} {cursor place : Cursor} {whole entries : List Entry} {reach : Nat}

/-! ## One call, from any place -/

/-- A session that is not taken for a lapped one settles, and gives the entry there if there is
one. -/
theorem next_of_settle (hage : cursor.isBehind log.oldest = false)
    (hsettle : cursor.settle log.medium log.frontier = place) : Session.next ⟨cursor⟩ log =
      if place.reached log.frontier then (none, ⟨place⟩, [])
      else (some (place.entry log.medium), ⟨place.advance log.medium log.frontier⟩, []) := by
  unfold next Log.step
  simp only [hage, hsettle, Bool.false_eq_true, if_false]
  split <;> rfl

theorem Reports.of_start (hage : cursor.isBehind log.oldest = true)
    (h : (Session.start log).Reports log entries) : Session.Reports log ⟨cursor⟩ entries := by
  obtain ⟨hfound, hsession⟩ := next_of_isBehind hage
  cases h with
  | done hnone => exact .done (hfound.trans hnone)
  | entry hsome hrest => exact .entry (hfound.trans hsome) (hsession.symm ▸ hrest)

/-! ## A whole report, from any place -/

/-- What a session gives from a place where it does not settle: what a walk reads, or more than the
whole report if some place on the way looks lapped. -/
theorem exists_reports (hwhole : (Session.start log).Reports log whole)
    (hsettled : ∀ other, Cursor.Visits log.medium log.frontier place other →
      other.settle log.medium log.frontier = other)
    (h : Cursor.Reads log.medium log.frontier place entries) :
    ∃ drained, Session.Reports log ⟨place⟩ drained ∧
      (drained = entries ∧ (∀ other, Cursor.Visits log.medium log.frontier place other →
          other.isBehind log.oldest = false) ∨
        whole.length ≤ drained.length ∧
          ∃ other, Cursor.Visits log.medium log.frontier place other ∧
            other.isBehind log.oldest = true) := by
  induction h with
  | @stop place hreached =>
    cases hage : place.isBehind log.oldest with
    | true => exact ⟨whole, .of_start hage hwhole, .inr ⟨Nat.le_refl _, place, .here _, hage⟩⟩
    | false =>
      have hnext := next_of_settle hage (hsettled place (.here _))
      rw [if_pos hreached] at hnext
      refine ⟨[], .done (by rw [hnext]), .inl ⟨rfl, fun other hother => ?_⟩⟩
      rw [(Cursor.visits_of_reached hreached).mp hother]
      exact hage
  | @entry place rest hreached _ ih =>
    cases hage : place.isBehind log.oldest with
    | true => exact ⟨whole, .of_start hage hwhole, .inr ⟨Nat.le_refl _, place, .here _, hage⟩⟩
    | false =>
      have hnext := next_of_settle hage (hsettled place (.here _))
      rw [hreached, if_neg Bool.false_ne_true] at hnext
      obtain ⟨drained, hreports, hcases⟩ := ih fun other hother =>
        hsettled other (.onward hreached hother)
      refine ⟨_, .entry (by rw [hnext]) (by rw [hnext]; exact hreports), ?_⟩
      rcases hcases with ⟨hdrained, hclear⟩ | ⟨hlength, other, hother, hlapped⟩
      · refine .inl ⟨by rw [hdrained], fun other hother => ?_⟩
        cases hother with
        | here => exact hage
        | onward _ hrest => exact hclear other hrest
      · rw [List.length_cons]
        exact .inr ⟨by omega, other, .onward hreached hother, hlapped⟩

/-- A cursor that is not taken for a lapped one reads on from where it settles, unless some place
behind that one looks lapped: then the session gives more than the whole report. -/
theorem exists_reports_of_settle (hwhole : (Session.start log).Reports log whole)
    (hage : cursor.isBehind log.oldest = false)
    (hsettle : cursor.settle log.medium log.frontier = place)
    (hsettled : ∀ other, Cursor.Visits log.medium log.frontier place other →
      other.settle log.medium log.frontier = other)
    (h : Cursor.Reads log.medium log.frontier place entries) :
    ∃ drained, Session.Reports log ⟨cursor⟩ drained ∧
      (drained = entries ∧ (∀ other, place.reached log.frontier = false →
          Cursor.Visits log.medium log.frontier (place.advance log.medium log.frontier) other →
            other.isBehind log.oldest = false) ∨
        whole.length < drained.length ∧ place.reached log.frontier = false ∧
          ∃ other,
            Cursor.Visits log.medium log.frontier (place.advance log.medium log.frontier) other ∧
              other.isBehind log.oldest = true) := by
  have hnext := next_of_settle hage hsettle
  cases h with
  | stop hreached =>
    rw [if_pos hreached] at hnext
    refine ⟨[], .done (by rw [hnext]), .inl ⟨rfl, fun other hnot => ?_⟩⟩
    rw [hreached] at hnot
    cases hnot
  | entry hreached hrest =>
    rw [hreached, if_neg Bool.false_ne_true] at hnext
    obtain ⟨drained, hreports, hcases⟩ := exists_reports hwhole
      (fun other hother => hsettled other (.onward hreached hother)) hrest
    refine ⟨_, .entry (by rw [hnext]) (by rw [hnext]; exact hreports), ?_⟩
    rcases hcases with ⟨hdrained, hclear⟩ | ⟨hlength, hlapped⟩
    · exact .inl ⟨by rw [hdrained], fun other _ => hclear other⟩
    · rw [List.length_cons]
      exact .inr ⟨by omega, hreached, hlapped⟩

/-! ## Reports from other slots -/

/-- A cursor that settles on its way gives the whole log if that is what comes, and if no place
behind the first one looks lapped. -/
theorem reports_iff_of_onWay (hcompact : log.Compact) (hpages : g.pages ≤ 32768)
    (hage : cursor.isBehind log.oldest = false)
    (hsettle : cursor.settle log.medium log.frontier = place) (hway : log.OnWay reach place)
    (hreach : reach < 65536) :
    ∃ drained, Session.Reports log ⟨cursor⟩ drained ∧
      (drained.map Entry.word = log.entries.map Entry.word ↔
        log.upcoming place = log.entries.map Entry.word ∧
          (log.entries.length ≤ log.used + 1 ∨ reach ≤ 32769)) := by
  obtain ⟨walked, hreads, hwords⟩ := hway.reads hcompact.step hcompact.full
  have hsettled : ∀ other, Cursor.Visits log.medium log.frontier place other →
      other.settle log.medium log.frontier = other := fun other hother =>
    (hway.visits hcompact.step hcompact.full hother).1.settle_eq hcompact.full
  obtain ⟨drained, hreports, hcases⟩ := exists_reports_of_settle
    (reports_of_fullRing hcompact.full hpages) hage hsettle hsettled hreads
  refine ⟨drained, hreports, ?_⟩
  rcases hcases with ⟨rfl, hclear⟩ | ⟨hlonger, hreached, hlapped⟩
  · rw [hwords, iff_self_and]
    intro hall
    have hlength := congrArg List.length hall
    rw [List.length_map] at hlength
    cases hreached : place.reached log.frontier with
    | true =>
      rcases hway.step hcompact.step hcompact.full with ⟨-, hnil⟩ | ⟨hnot, -⟩
      · rw [hnil, List.length_nil] at hlength
        omega
      · rw [hreached] at hnot
        cases hnot
    | false =>
      have hiff := hway.lapped_iff hcompact hpages hreach hreached
      by_contra hfar
      obtain ⟨other, hother, hlapped⟩ := hiff.mpr (by omega)
      rw [hclear other hreached hother] at hlapped
      cases hlapped
  · have hfar := (hway.lapped_iff hcompact hpages hreach hreached).mp hlapped
    constructor
    · intro hall
      have hlength := congrArg List.length hall
      rw [List.length_map, List.length_map] at hlength
      omega
    · rintro ⟨hall, hkeeps⟩
      have hlength := congrArg List.length hall
      rw [List.length_map] at hlength
      omega

/-- A cursor in another slot than the one being written. -/
theorem reports_iff_of_ne (hcompact : log.Compact) (hpages : g.pages ≤ 32768)
    (hvalid : cursor.Valid g) (hne : cursor.page.slot ≠ log.page.slot)
    (hage : cursor.isBehind log.oldest = false) :
    ∃ drained, Session.Reports log ⟨cursor⟩ drained ∧
      (drained.map Entry.word = log.entries.map Entry.word ↔
        log.Precedes cursor ∧ log.KeepsPace cursor) := by
  have hnumber : cursor.page.number = log.oldest.page.number +
      UInt16.ofNat (cursor.page.number - log.oldest.page.number).toNat := by
    rw [UInt16.ofNat_toNat, UInt16.add_comm, UInt16.sub_add_cancel]
  have hlead := UInt16.toNat_lt (cursor.page.number - log.oldest.page.number)
  have hnear := hage
  rw [Cursor.isBehind_of_lead hlead hnumber, decide_eq_false_iff_not] at hnear
  have hdistance := Geometry.distance_lt hvalid.slot_lt log.slot_lt
  obtain ⟨hway, hsame⟩ := Log.onWay_settle hcompact.step hcompact.full hvalid hne hnumber rfl
  have hprecedes : log.Precedes cursor ↔ log.upcoming cursor = log.entries.map Entry.word := by
    rw [hcompact.upcoming_eq_iff hvalid.slot_lt hne, Log.Precedes]
    simp [hne]
  rw [hprecedes, ← hsame]
  exact reports_iff_of_onWay hcompact hpages hage rfl hway (by omega)

/-! ## Reports from the slot being written -/

/-- In the slot being written a session reads on up to the index of the frontier. -/
theorem reports_rest (hslot : cursor.page.slot = log.page.slot)
    (hage : cursor.isBehind log.oldest = false) :
    Session.Reports log ⟨cursor⟩ (log.rest cursor) := by
  -- induction on the records up to that index
  unfold Log.rest
  induction hcount : log.used - cursor.index generalizing cursor with
  | zero =>
    have hstep := log.step_of_slot_eq hslot hage
    rw [if_pos (by omega)] at hstep
    exact .done (by rw [next, hstep])
  | succ count ih =>
    have hstep := log.step_of_slot_eq hslot hage
    rw [if_neg (by omega)] at hstep
    rw [List.range'_succ, List.map_cons]
    refine .entry (by rw [next, hstep]) ?_
    rw [next, hstep]
    exact @ih ⟨cursor.page, cursor.index + 1⟩ hslot hage (by dsimp only; omega)

/-- A cursor in the slot being written. -/
theorem reports_iff_of_eq (hcompact : log.Compact) (hvalid : cursor.Valid g)
    (hslot : cursor.page.slot = log.page.slot) (hage : cursor.isBehind log.oldest = false) :
    ∃ drained, Session.Reports log ⟨cursor⟩ drained ∧
      (drained.map Entry.word = log.entries.map Entry.word ↔
        log.Precedes cursor ∧ log.KeepsPace cursor) := by
  refine ⟨_, reports_rest hslot hage, ?_⟩
  rw [hcompact.rest_eq_iff hvalid hslot, Log.Precedes, Log.KeepsPace, hslot,
    Geometry.distance_self]
  constructor
  · rintro ⟨hoffset, hindex, hsame⟩
    have hlength := hcompact.length_entries_le_iff.mpr hsame.symm
    exact ⟨.inr ⟨hsame, hoffset, fun _ => hindex⟩, .inl (by omega)⟩
  · rintro ⟨hlt | ⟨hsame, hoffset, hindex⟩, -⟩
    · omega
    · exact ⟨hoffset, hindex rfl, hsame⟩

/-- A session gives the whole log just when its cursor covers that. -/
theorem reports_iff_covers (hcompact : log.Compact) (hpages : g.pages ≤ 32768)
    (hvalid : cursor.Valid g) :
    ∃ drained, Session.Reports log ⟨cursor⟩ drained ∧
      (drained.map Entry.word = log.entries.map Entry.word ↔ log.Covers cursor) := by
  unfold Log.Covers
  cases hage : cursor.isBehind log.oldest with
  | true =>
    have hwhole := reports_of_fullRing hcompact.full hpages
    exact ⟨log.entries, .of_start hage hwhole, iff_of_true rfl (.inl rfl)⟩
  | false =>
    simp only [Bool.false_eq_true, false_or]
    by_cases hslot : cursor.page.slot = log.page.slot
    · exact reports_iff_of_eq hcompact hvalid hslot hage
    · exact reports_iff_of_ne hcompact hpages hvalid hslot hage

end Session

/-! ## The cursors of a reader -/

namespace Log

variable {log : Log g} {cursor : Cursor}

theorem valid_of_headerSize (hfull : log.medium.FullRing log.page) {page : Page} {index : Nat}
    (hslot : page.slot < g.pages)
    (hsize : page.headerSize = (Page.load log.medium page.slot).headerSize) :
    Cursor.Valid g ⟨page, index⟩ :=
  ⟨hslot, hsize ▸ (hfull.inTurn _ hslot).1.fits.headerSize_pos⟩

theorem valid_turnPage (hfull : log.medium.FullRing log.page) (cursor : Cursor) :
    (cursor.turnPage log.medium log.frontier).Valid g := by
  unfold Cursor.turnPage
  dsimp only
  split
  · exact valid_of_headerSize hfull log.slot_lt (by rw [frontier, hfull.load_eq])
  · exact valid_of_headerSize hfull (Geometry.next_lt log.pages_pos) rfl

theorem valid_settle (hfull : log.medium.FullRing log.page) (hvalid : cursor.Valid g) :
    (cursor.settle log.medium log.frontier).Valid g := by
  -- induction on the pages that it may turn
  unfold Cursor.settle
  generalize g.distance cursor.page.slot log.frontier.page.slot = hops
  induction hops generalizing cursor with
  | zero => exact hvalid
  | succ hops ih =>
    rw [Cursor.settleWithin]
    split
    · exact ih (valid_turnPage hfull cursor)
    · exact hvalid

theorem valid_advance (hfull : log.medium.FullRing log.page) (hvalid : cursor.Valid g) :
    (cursor.advance log.medium log.frontier).Valid g := by
  unfold Cursor.advance
  split
  · exact hvalid
  · exact valid_settle hfull ⟨hvalid.slot_lt, hvalid.headerSize_pos⟩

theorem valid_oldest (hfull : log.medium.FullRing log.page) : log.oldest.Valid g :=
  valid_settle hfull (valid_of_headerSize hfull log.next_slot_lt rfl)

theorem valid_step (hfull : log.medium.FullRing log.page) (hvalid : cursor.Valid g) :
    (log.step cursor).cursor.Valid g := by
  have hhere : (Cursor.settle log.medium
      (if cursor.isBehind log.oldest then log.oldest else cursor) log.frontier).Valid g := by
    refine valid_settle hfull ?_
    split
    · exact valid_oldest hfull
    · exact hvalid
  unfold step
  dsimp only
  generalize Cursor.settle log.medium (if cursor.isBehind log.oldest then log.oldest else cursor)
    log.frontier = here at hhere ⊢
  split
  · exact hhere
  · exact valid_advance hfull hhere

end Log

/-- The log records nothing that is an erased word, and the reader does anything. -/
def Move.Lawful (g : Geometry) : Move → Prop
  | operate now operation => (Action.perform now operation).Regular g
  | look => True

instance (g : Geometry) (move : Move) : Decidable (move.Lawful g) :=
  match move with
  | .operate now operation => inferInstanceAs (Decidable ((Action.perform now operation).Regular g))
  | .look => inferInstanceAs (Decidable True)

namespace Watch

/-- The log remembers a history, and the reader's cursor is a valid one. -/
structure Sound (watch : Watch g) (history : History) : Prop where
  recalls : watch.log.Recalls history
  opens : history.Opens
  valid : watch.cursor.Valid g

variable {watch : Watch g} {history : History} {moves : List Move}

theorem sound_start {log : Log g} (h : log.Recalls history) (hopens : history.Opens) :
    (start log).Sound history :=
  ⟨h, hopens, Log.valid_oldest h.shows.full⟩

theorem Sound.look (h : watch.Sound history) : watch.look.Sound history := by
  have hvalid := Log.valid_step h.recalls.shows.full h.valid
  unfold Watch.look
  generalize watch.log.step watch.cursor = step at hvalid ⊢
  exact ⟨h.recalls, h.opens, hvalid⟩

theorem Sound.operate (h : watch.Sound history) (hpages : g.pages < 65536) {now : Instant}
    {operation : Operation} (hoperation : (Action.perform now operation).Regular g) :
    (watch.operate now operation).Sound (history.act g (.perform now operation)) := by
  obtain ⟨log', hlog', hrecalls⟩ := Device.recalls_act h.recalls hpages hoperation
  cases hlog'
  exact ⟨hrecalls, h.opens.act (.perform now operation), h.valid⟩

theorem Sound.move (h : watch.Sound history) (hpages : g.pages < 65536) {move : Move}
    (hmove : move.Lawful g) : ∃ history', (watch.move move).Sound history' := by
  cases move with
  | operate now operation => exact ⟨_, h.operate hpages hmove⟩
  | look => exact ⟨history, h.look⟩

theorem Sound.follow (h : watch.Sound history) (hpages : g.pages < 65536)
    (hmoves : ∀ move ∈ moves, move.Lawful g) : ∃ history', (watch.follow moves).Sound history' := by
  induction moves generalizing watch history with
  | nil => exact ⟨history, h⟩
  | cons move rest ih =>
    obtain ⟨history', hnext⟩ := h.move hpages (hmoves move List.mem_cons_self)
    exact ih hnext fun other hother => hmoves other (List.mem_cons_of_mem _ hother)

theorem Sound.follow_operations (h : watch.Sound history) (hpages : g.pages < 65536)
    {operations : List (Instant × Operation)}
    (hoperations : ∀ operation ∈ operations, (Action.perform operation.1 operation.2).Regular g) :
    (watch.follow (operations.map fun operation => .operate operation.1 operation.2)).Sound
      (history.actAll g (operations.map fun operation => .perform operation.1 operation.2)) := by
  induction operations generalizing watch history with
  | nil => exact h
  | cons operation rest ih =>
    exact ih (h.operate hpages (hoperations operation List.mem_cons_self)) fun other hother =>
      hoperations other (List.mem_cons_of_mem _ hother)

theorem config_move (watch : Watch g) (move : Move) :
    (watch.move move).log.config = watch.log.config := by
  cases move with
  | operate now operation => exact watch.log.config_perform now operation
  | look => rfl

theorem config_follow (watch : Watch g) (moves : List Move) :
    (watch.follow moves).log.config = watch.log.config := by
  induction moves generalizing watch with
  | nil => rfl
  | cons move rest ih => exact (ih (watch.move move)).trans (watch.config_move move)

theorem Sound.compact (h : watch.Sound history) : watch.log.Compact :=
  h.recalls.shows.compact h.opens.leaves_ne_nil (List.cons_ne_nil _ _)

end Watch

namespace Device

/-- A reader of any log that was written to without interruption, on at most 2^15 pages, takes steps
while records are written, pages rotated and the log erased. Behind the last erasure it takes none
until it is asked for all that is left. Then the log holds what one holds that is begun at that
erasure, and the reader comes to an end. It gives this whole log just when its cursor covers it. -/
theorem drained_iff (hpages : g.pages ≤ 32768) {actions : List Action}
    (hactions : ∀ action ∈ actions, action.Regular g) {log : Log g}
    (hlog : (new g).actAll actions = running log) {moves : List Move}
    (hmoves : ∀ move ∈ moves, move.Lawful g) (moment : Instant)
    {operations : List (Instant × Operation)}
    (hoperations : ∀ operation ∈ operations, (Action.perform operation.1 operation.2).Regular g) :
    let watch := (Watch.start log).follow (moves ++ .operate moment .eraseAll ::
      operations.map fun operation => .operate operation.1 operation.2)
    watch.log.entries.map Entry.shown =
        ((History.start log.config.headerSize moment).actAll g
          (operations.map fun operation => .perform operation.1 operation.2)).entries g ∧
      ∃ drained, Session.Reports watch.log ⟨watch.cursor⟩ drained ∧
        (drained.map Entry.word = watch.log.entries.map Entry.word ↔
          watch.log.Covers watch.cursor) := by
  intro watch
  have hbound : g.pages < 65536 := Nat.lt_of_le_of_lt hpages (by decide)
  obtain ⟨history, hrecalls, hopens, -⟩ := recalls_of_running hbound hactions hlog
  obtain ⟨history', hsound⟩ := (Watch.sound_start hrecalls hopens).follow hbound hmoves
  have hconfig : ((Watch.start log).follow moves).log.config = log.config :=
    (Watch.start log).config_follow moves
  have herased : (((Watch.start log).follow moves).operate moment .eraseAll).Sound
      (history'.act g (.perform moment .eraseAll)) := hsound.operate hbound trivial
  have hstart : history'.act g (.perform moment .eraseAll) =
      .start log.config.headerSize moment := by
    rw [← hconfig, hsound.recalls.headerSize_eq]
    rfl
  rw [hstart] at herased
  have hdone := herased.follow_operations hbound hoperations
  have hwatch : watch = (((Watch.start log).follow moves).operate moment .eraseAll).follow
      (operations.map fun operation => .operate operation.1 operation.2) :=
    Watch.follow_append ..
  rw [← hwatch] at hdone
  exact ⟨hdone.recalls.shows.entries_eq,
    Session.reports_iff_covers hdone.compact hpages hdone.valid⟩

/-- A reader in the slot behind the one that an erasure begins with gets the whole new log. -/
theorem drained_iff_ahead :
    let moves : List Move := [.operate ⟨0⟩ .rotate, .look, .look]
    let operations : List (Instant × Operation) := [(⟨0⟩, .append 7)]
    (∀ move ∈ moves, move.Lawful ⟨3, 16⟩) ∧
      (∀ operation ∈ operations, (Action.perform operation.1 operation.2).Regular ⟨3, 16⟩) ∧
      ∃ log, (new ⟨3, 16⟩).actAll [.boot ⟨4, 1⟩ ⟨0⟩] = running log ∧
        let watch := (Watch.start log).follow (moves ++ .operate ⟨0⟩ .eraseAll ::
          operations.map fun operation => .operate operation.1 operation.2)
        watch.cursor = ⟨⟨1, 1, 1⟩, 1⟩ ∧ watch.log.entries.map Entry.shown = [(0, 0), (1, 7)] ∧
          ∃ drained, Session.Reports watch.log ⟨watch.cursor⟩ drained ∧
            drained.map Entry.word = watch.log.entries.map Entry.word := by
  intro moves operations
  have hmoves : ∀ move ∈ moves, move.Lawful ⟨3, 16⟩ := by decide
  have hoperations : ∀ operation ∈ operations,
      (Action.perform operation.1 operation.2).Regular ⟨3, 16⟩ := by decide
  have hactions : ∀ action ∈ [Action.boot ⟨4, 1⟩ ⟨0⟩], action.Regular ⟨3, 16⟩ := by decide
  obtain ⟨log, hlog, hcursor, hshown, hcovers⟩ :
      ∃ log, (new ⟨3, 16⟩).actAll [.boot ⟨4, 1⟩ ⟨0⟩] = running log ∧
        let watch := (Watch.start log).follow (moves ++ .operate ⟨0⟩ .eraseAll ::
          operations.map fun operation => .operate operation.1 operation.2)
        watch.cursor = ⟨⟨1, 1, 1⟩, 1⟩ ∧ watch.log.entries.map Entry.shown = [(0, 0), (1, 7)] ∧
          watch.log.Covers watch.cursor :=
    ⟨_, rfl, by decide +kernel, by decide +kernel, by decide +kernel⟩
  obtain ⟨-, drained, hreports, hwhole⟩ :=
    drained_iff (by decide) hactions hlog hmoves ⟨0⟩ hoperations
  exact ⟨hmoves, hoperations, log, hlog, hcursor, hshown, drained, hreports, hwhole.mpr hcovers⟩

/-- A reader has found the two records of the first page. An erasure begins that page anew, with the
same number, and one more record is written. The reader comes to an end at once and finds neither
this record nor the anchor. -/
theorem not_drained :
    let moves : List Move := [.look, .look, .operate (.ofSeconds 100) .eraseAll,
      .operate (.ofSeconds 100) (.append 0x81000004)]
    ∃ log, (new ⟨3, 16⟩).actAll [.boot ⟨4, 1⟩ (.ofSeconds 100),
        .perform (.ofSeconds 100) (.append 0x81000003)] = running log ∧
      let watch := (Watch.start log).follow moves
      watch.log.entries.map Entry.shown = [(0, 100), (1, 0x81000004)] ∧
        Session.Reports watch.log ⟨watch.cursor⟩ [] :=
  ⟨_, rfl, by decide +kernel, .done (by decide +kernel)⟩

end Device

end RingLog
