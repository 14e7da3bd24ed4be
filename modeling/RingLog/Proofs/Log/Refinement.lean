import RingLog.Proofs.Log.Entries
import RingLog.Proofs.Log.History
import RingLog.Proofs.Log.Recovery
import RingLog.Proofs.Log.Walk

/-!
# What a log remembers

A log without interruptions is a history. Going backwards from the page being written, the slots
of the ring hold the leaves of the history, the newest first (`Log.Shows`); what is left of the
ring holds no words. Every operation and every boot does the same to both.

Main statement: `Device.recalls_actAll`.
-/

namespace RingLog

variable {g : Geometry}

/-- The entry with its position as a number. -/
def Entry.shown (entry : Entry) : Nat × Word :=
  (entry.position.value.toNat, entry.word)

theorem flatMap_getElem?_range {α β : Type} {list : List α} {count : Nat}
    (f : α → List β) (hlength : list.length ≤ count) :
    (List.range count).reverse.flatMap (fun index => list[index]?.elim [] f) =
      list.reverse.flatMap f := by
  induction list generalizing count with
  | nil => simp
  | cons first rest ih =>
    obtain ⟨count, rfl⟩ : ∃ more, count = more + 1 := by
      rw [List.length_cons] at hlength
      exact ⟨count - 1, by omega⟩
    have hrest := ih (Nat.le_of_succ_le_succ hlength)
    simp only [List.range_succ_eq_map, List.reverse_cons, List.flatMap_append,
      List.flatMap_singleton, ← List.map_reverse, List.flatMap_map, List.getElem?_cons_succ, hrest,
      List.getElem?_cons_zero, Option.elim_some]

theorem Page.map_shown_entries {page : Page} {words : List Word} (hsize : g.pageSize ≤ 65536)
    (hlength : words.length ≤ page.capacity g) : (page.entries g words).map Entry.shown =
      Leaf.entries g ⟨page.number, page.headerSize, words⟩ := by
  refine List.ext_getElem (by simp [entries, Leaf.entries]) fun index hindex _ => ?_
  rw [List.length_map, length_entries] at hindex
  have hlt : index < g.pageSize := by
    unfold capacity at hlength
    omega
  simp [entries, Leaf.entries, Entry.shown, position, Position.toNat_of hsize hlt]

namespace Medium

/-- The slot holds the leaf, or no words if there is none. -/
def Shows (medium : Medium g) (slot : Nat) : Option Leaf → Prop
  | some leaf => Page.load medium slot = ⟨slot, leaf.number, leaf.headerSize⟩ ∧
      medium.wordsAt slot = leaf.words
  | none => medium.wordsAt slot = []

theorem Shows.congr {medium medium' : Medium g} {slot : Nat} {leaf : Option Leaf}
    (hload : Page.load medium' slot = Page.load medium slot)
    (hwords : medium'.wordsAt slot = medium.wordsAt slot) (h : medium.Shows slot leaf) :
    medium'.Shows slot leaf := by
  cases leaf with
  | none => exact hwords.trans h
  | some leaf => exact ⟨hload.trans h.1, hwords.trans h.2⟩

end Medium

namespace Log

variable {log log' : Log g} {leaf : Leaf} {leaves : List Leaf} {words : List Word}

/-- Backwards from the page being written, the slots of the ring hold the leaves. -/
structure Shows (log : Log g) (leaves : List Leaf) : Prop where
  onRing : log.OnRing
  full : log.medium.FullRing log.page
  length_le : leaves.length ≤ g.pages
  shows : ∀ slot < g.pages, log.medium.Shows slot leaves[g.distance slot log.page.slot]?

/-- The entries around the ring are those of the leaves if they are so slot by slot. -/
theorem map_shown_lap (log : Log g) (hlength : leaves.length ≤ g.pages) {entries : Nat → List Entry}
    (hslots : ∀ slot < g.pages, (entries slot).map Entry.shown =
      leaves[g.distance slot log.page.slot]?.elim [] (Leaf.entries g)) :
    ((g.lap log.page.slot ++ [log.page.slot]).flatMap entries).map Entry.shown =
      leaves.reverse.flatMap (Leaf.entries g) := by
  have hlap : ∀ slot ∈ g.lap log.page.slot ++ [log.page.slot], (entries slot).map Entry.shown =
      leaves[g.distance slot log.page.slot]?.elim [] (Leaf.entries g) := by
    intro slot hmem
    refine hslots slot ?_
    rcases List.mem_append.mp hmem with hlap | hactive
    · exact ((Geometry.mem_lap log.slot_lt log.two_le_pages).mp hlap).1
    · rw [List.mem_singleton.mp hactive]
      exact log.slot_lt
  rw [List.map_flatMap, List.flatMap_congr hlap, ← flatMap_getElem?_range _ hlength,
    ← Geometry.map_distance_lap log.slot_lt log.two_le_pages, List.flatMap_map]

theorem Shows.entries_eq (h : log.Shows leaves) :
    log.entries.map Entry.shown = leaves.reverse.flatMap (Leaf.entries g) := by
  rw [h.onRing.toInStep.entries_eq h.full]
  refine log.map_shown_lap h.length_le fun slot hslot => ?_
  have hlength := (h.full.inTurn slot hslot).1.length_le
  have hshows := h.shows slot hslot
  rw [Page.map_shown_entries log.fits.pageSize_le hlength]
  cases hleaf : leaves[g.distance slot log.page.slot]? with
  | none =>
    rw [hleaf] at hshows
    have hnone : log.medium.wordsAt slot = [] := hshows
    rw [hnone]
    rfl
  | some leaf =>
    rw [hleaf] at hshows
    rw [hshows.1, hshows.2]
    rfl

theorem Shows.last (h : log.Shows (leaf :: leaves)) :
    log.page = ⟨log.page.slot, leaf.number, leaf.headerSize⟩ ∧
      log.medium.wordsAt log.page.slot = leaf.words := by
  have hshows := h.shows _ log.slot_lt
  rw [Geometry.distance_self] at hshows
  exact ⟨h.full.load_eq.symm.trans hshows.1, hshows.2⟩

/-- The words of a leaf on the page being written grow as those of the page do. -/
theorem InStep.wordsAt_pushed_leaf (h : log.InStep) (hp : log.Pushed log' words)
    (hwords : Word.erased ∉ words) (hsize : log.page.headerSize = leaf.headerSize)
    (hleaf : log.medium.wordsAt log.page.slot = leaf.words) :
    log'.medium.wordsAt log.page.slot = (leaf.addAll g words).words := by
  rw [h.wordsAt_pushed hp hwords, if_pos rfl, fitting, h.used_eq, hleaf, Page.capacity, hsize,
    Leaf.addAll_eq]
  rfl

theorem Shows.pushed (h : log.Shows (leaf :: leaves)) (hp : log.Pushed log' words)
    (hwords : Word.erased ∉ words) : log'.Shows (leaf.addAll g words :: leaves) := by
  have hstep := h.onRing.toInStep
  obtain ⟨hpage, hlast⟩ := h.last
  refine ⟨h.onRing.pushed hp hwords, hstep.fullRing_pushed h.full hp hwords, h.length_le, ?_⟩
  intro slot hslot
  have hload := hstep.load_pushed hp hwords slot
  have hadded := hstep.wordsAt_pushed hp hwords slot
  rw [hp.page_eq]
  by_cases hactive : slot = log.page.slot
  · have hsize : log.page.headerSize = leaf.headerSize := congrArg Page.headerSize hpage
    rw [hactive, Geometry.distance_self]
    refine ⟨?_, hstep.wordsAt_pushed_leaf hp hwords hsize hlast⟩
    rw [← hactive, hload, hactive, h.full.load_eq, Leaf.addAll_eq]
    exact hpage
  · -- an older slot is a step back at least, so its leaf is behind the first
    rw [if_neg hactive, List.append_nil] at hadded
    have hshows := h.shows slot hslot
    obtain ⟨count, hcount⟩ := Nat.exists_eq_add_of_lt (Geometry.distance_pos hslot hactive)
    rw [Nat.zero_add] at hcount
    rw [hcount, List.getElem?_cons_succ] at hshows ⊢
    exact hshows.congr hload hadded

/-- A rotation adds a leaf and drops the oldest one of a full ring. -/
theorem Shows.turned (h : log.Shows (leaf :: leaves)) (hpages : g.pages < 65536) :
    log.turned.Shows (⟨leaf.number + 1, log.config.headerSize, []⟩ ::
      (leaf :: leaves).take (g.pages - 1)) := by
  have hstep := h.onRing.toInStep
  have hfull := h.onRing.fullRing_turned
  have htwo := log.two_le_pages
  refine ⟨.of_fullRing hstep.turned hfull hpages, hfull, ?_, fun slot hslot => ?_⟩
  · rw [List.length_cons, List.length_take]
    omega
  · have hpage : log.turned.page.slot = g.next log.page.slot := rfl
    rw [hpage]
    by_cases hnext : slot = g.next log.page.slot
    · rw [hnext, Geometry.distance_self]
      refine ⟨?_, hstep.holds_turned.wordsAt_eq⟩
      have hload := hstep.holds_turned.load_eq
      rw [rotatedPage, h.last.1] at hload
      exact hload
    · -- every other leaf is one step further back, and the oldest one has left the list
      have hread := hstep.read_turned hnext
      have hdistance := Geometry.distance_to_next hslot log.slot_lt hnext
      have hlt := Geometry.distance_lt hslot log.next_slot_lt
      have hshows := h.shows slot hslot
      rw [hdistance, List.getElem?_cons_succ, List.getElem?_take_of_lt (by omega)]
      exact hshows.congr (Medium.load_congr hread) (Medium.wordsAt_congr hread)

/-- A ring just formatted holds one leaf without words. -/
theorem shows_fresh (hstep : log.InStep) (hfull : log.medium.FullRing log.page)
    (hpages : g.pages < 65536) {headerSize : UInt8}
    (hpage : log.page = Page.initial g headerSize 0)
    (hnone : ∀ slot < g.pages, log.medium.wordsAt slot = []) :
    log.Shows [⟨0, headerSize, []⟩] := by
  refine ⟨.of_fullRing hstep hfull hpages, hfull, log.pages_pos, fun slot hslot => ?_⟩
  by_cases hactive : slot = log.page.slot
  · rw [hactive, Geometry.distance_self]
    refine ⟨?_, hnone _ log.slot_lt⟩
    rw [hfull.load_eq, hpage]
    rfl
  · rw [List.getElem?_eq_none (Geometry.distance_pos hslot hactive)]
    exact hnone slot hslot

theorem Shows.cleared (h : log.Shows leaves) (hpages : g.pages < 65536) :
    log.cleared.Shows [⟨0, log.config.headerSize, []⟩] := by
  have hpowered := h.onRing.powered
  refine shows_fresh (.cleared hpowered) (fullRing_cleared hpowered) hpages
    (page_cleared hpowered) fun slot hslot => ?_
  exact (holds_cleared hpowered hslot).wordsAt_eq

/-- A boot finds the leaves on any chip with the medium of the log. -/
theorem Shows.found (h : log.Shows leaves) {chip : Chip g} (hpowered : chip.supply = none)
    (hmedium : chip.medium = log.medium) {config : Config} (hfits : config.Fits g)
    (hpages : g.pages < 65536) : (found chip config hfits.accepted).Shows leaves := by
  have hring := hmedium.symm ▸ h.onRing.ring
  have hformatted := hmedium.symm ▸ h.onRing.formatted
  have hactive := hmedium.symm ▸ h.onRing.activeSlot_eq
  obtain ⟨hpage, hsame⟩ := recover_of_activeSlot hpowered hring hfits hactive
  have hrecover := onRing_recover hpowered hring hformatted hfits hpages
  rw [found_of_formatted hformatted]
  refine ⟨hrecover.1, ?_, h.length_le, ?_⟩
  · rw [hpage, hsame, hmedium]
    exact h.full
  · rw [hpage, hsame, hmedium]
    exact h.shows

/-! ## References -/

theorem reference_push (log : Log g) (word : Word) : (log.push word).reference = log.reference := by
  unfold push
  split <;> rfl

theorem reference_requestRotation (log : Log g) :
    log.requestRotation.reference = log.reference := by
  unfold requestRotation
  split <;> rfl

theorem reference_writeAnchor (log : Log g) (now : Instant) :
    (log.writeAnchor now).reference = .ofSeconds now.seconds :=
  reference_push { log with reference := Instant.ofSeconds now.seconds } _

theorem reference_anchorTime (log : Log g) (now : Instant) :
    (log.anchorTime now).reference = .ofSeconds now.seconds := by
  rw [anchorTime, reference_requestRotation, reference_writeAnchor]

theorem reference_append (log : Log g) (now : Instant) (word : Word) :
    (log.append now word).reference = (log.writeElapsed now).reference := by
  rw [append, reference_requestRotation, reference_push]

theorem reference_boot {chip : Chip g} {config : Config} {now : Instant}
    (h : boot chip config now = .ok log) : log.reference = .ofSeconds now.seconds := by
  unfold boot at h
  split at h
  · cases h
  · split at h
    · cases h
      exact reference_anchorTime _ now
    · cases h
      exact reference_anchorTime _ now

/-! ## Histories -/

variable {history : History} {now : Instant}

/-- The log holds the leaves of the history and goes on as it does. -/
structure Recalls (log : Log g) (history : History) : Prop where
  shows : log.Shows history.leaves
  headerSize_eq : log.config.headerSize = history.headerSize
  reference_eq : log.reference = history.reference

theorem Recalls.pushed (h : log.Recalls history) (hp : log.Pushed log' words)
    (hwords : Word.erased ∉ words) : log'.Recalls (history.write g words log'.reference) where
  shows := h.shows.pushed hp hwords
  headerSize_eq := by
    rw [hp.config_eq]
    exact h.headerSize_eq
  reference_eq := rfl

theorem Recalls.anchorTime (h : log.Recalls history) :
    (log.anchorTime now).Recalls (history.anchor g now) := by
  rw [History.anchor, ← log.reference_anchorTime now]
  exact h.pushed (log.pushed_anchorTime now) (erased_not_mem_anchor now)

theorem Recalls.append (h : log.Recalls history) {word : Word} (hword : word ≠ Word.erased) :
    (log.append now word).Recalls (history.append g now word) := by
  have hpushed := h.pushed (log.pushed_append now word) (log.erased_not_mem_append now hword)
  rw [reference_append] at hpushed
  unfold elapsedWords writeElapsed at hpushed
  unfold History.append
  dsimp only at hpushed ⊢
  rw [← h.reference_eq]
  by_cases hzero : now.millisSince log.reference = 0
  · have hmax : ¬Record.maxElapsed < now.millisSince log.reference := by omega
    rw [if_neg hmax, if_pos hzero, if_neg hmax, if_pos hzero] at hpushed
    rw [if_pos hzero]
    exact hpushed
  · rw [if_neg hzero]
    by_cases hmax : Record.maxElapsed < now.millisSince log.reference
    · rw [if_pos hmax, if_pos hmax, reference_writeAnchor] at hpushed
      rw [if_neg (Nat.not_le.mpr hmax)]
      exact hpushed
    · rw [if_neg hmax, if_neg hzero, if_neg hmax, if_neg hzero, reference_push] at hpushed
      rw [if_pos (Nat.not_lt.mp hmax)]
      exact hpushed

/-- On a leaf without words there is room for an anchor. -/
theorem addAll_anchor {number : UInt16} {headerSize : UInt8}
    (hlt : headerSize.toNat < g.pageSize) (now : Instant) :
    Leaf.addAll g ⟨number, headerSize, []⟩ [anchorWord now] =
      ⟨number, headerSize, [anchorWord now]⟩ := by
  rw [Leaf.addAll_eq, List.take_of_length_le, List.nil_append]
  simp only [Leaf.room, List.length_singleton, List.length_nil]
  omega

theorem Recalls.rotate (h : log.Recalls history) (hpages : g.pages < 65536) :
    (log.rotate now).Recalls (history.rotate g now) where
  shows := by
    have hlt := log.fits.headerSize_lt
    have hshows := (h.shows.turned hpages).pushed (log.pushed_rotate now)
      (erased_not_mem_anchor now)
    rw [addAll_anchor hlt, h.headerSize_eq] at hshows
    exact hshows
  headerSize_eq := (log.pushed_rotate now).config_eq ▸ h.headerSize_eq
  reference_eq := log.turned.reference_writeAnchor now

theorem Recalls.eraseAll (h : log.Recalls history) (hpages : g.pages < 65536) :
    (log.eraseAll now).Recalls (.start history.headerSize now) where
  shows := by
    have hlt := log.fits.headerSize_lt
    have hshows := (h.shows.cleared hpages).pushed (log.pushed_eraseAll now)
      (erased_not_mem_anchor now)
    rw [addAll_anchor hlt, h.headerSize_eq] at hshows
    exact hshows
  headerSize_eq := (log.pushed_eraseAll now).config_eq ▸ h.headerSize_eq
  reference_eq := log.cleared.reference_writeAnchor now

end Log

namespace Device

variable {log : Log g} {history : History}

/-- The first boot of a device starts a history. -/
theorem recalls_start (hpages : g.pages < 65536) {config : Config} (hfits : config.Fits g)
    (now : Instant) : ∃ log, (new g).act (.boot config now) = running log ∧
      log.Recalls (.start config.headerSize now) := by
  obtain ⟨log, hboot, hpushed⟩ := boot_of_fits (new g).chip hfits now
  have hunformatted : (new g).chip.medium.isUnformatted := Medium.isUnformatted_blank g
  have hfound := Log.found_of_unformatted hunformatted hfits.accepted
  obtain ⟨hstep, hfull, hpage, hnone⟩ := Log.fullRing_recover_format rfl hfits hpages hfound
  have hshows := (Log.shows_fresh hstep hfull hpages hpage hnone).pushed hpushed
    (erased_not_mem_anchor now)
  rw [Log.addAll_anchor hfits.headerSize_lt] at hshows
  refine ⟨log, act_boot hboot, hshows, ?_, Log.reference_boot hboot⟩
  rw [hpushed.config_eq, hfound, (Log.recover_spec ..).2.1]
  rfl

/-- Every action does the same to a log and to its history. -/
theorem recalls_act (h : log.Recalls history) (hpages : g.pages < 65536) {action : Action}
    (haction : action.Regular g) : ∃ log', (running log).act action = running log' ∧
      log'.Recalls (history.act g action) := by
  cases action with
  | boot config now =>
    obtain ⟨log', hboot, hpushed⟩ := boot_of_fits (running log).chip haction now
    have hfound := h.shows.found h.shows.onRing.powered rfl haction hpages
    refine ⟨log', act_boot hboot, hfound.pushed hpushed (erased_not_mem_anchor now), ?_,
      Log.reference_boot hboot⟩
    rw [hpushed.config_eq, Log.found, (Log.recover_spec ..).2.1]
    rfl
  | perform now operation =>
    refine ⟨_, rfl, ?_⟩
    cases operation with
    | append word => exact h.append haction
    | anchor => exact h.anchorTime
    | rotate => exact h.rotate hpages
    | eraseAll => exact h.eraseAll hpages

theorem recalls_actAll (h : log.Recalls history) (hpages : g.pages < 65536)
    {actions : List Action} (hactions : ∀ action ∈ actions, action.Regular g) :
    ∃ log', (running log).actAll actions = running log' ∧
      log'.Recalls (history.actAll g actions) := by
  induction actions generalizing log history with
  | nil => exact ⟨log, rfl, h⟩
  | cons action rest ih =>
    obtain ⟨log', hlog', hrecalls⟩ := recalls_act h hpages (hactions action List.mem_cons_self)
    obtain ⟨log'', hlog'', hrest⟩ := ih hrecalls fun other hother =>
      hactions other (List.mem_cons_of_mem _ hother)
    refine ⟨log'', ?_, hrest⟩
    rw [actAll, List.foldl_cons, hlog']
    exact hlog''

/-- A device that is opened and then used without interruption, opened again now and then, has the
entries of the history of these actions: their words in order, each with the position that number
and index give it. A cursor reads just these from the oldest one to the frontier. -/
theorem entries_eq_history (hpages : g.pages < 65536) {config : Config} (hfits : config.Fits g)
    (now : Instant) {actions : List Action} (hactions : ∀ action ∈ actions, action.Regular g) :
    ∃ log, (new g).actAll (.boot config now :: actions) = running log ∧
      log.entries.map Entry.shown =
        ((History.start config.headerSize now).actAll g actions).entries g ∧
      Cursor.Reads log.medium log.frontier log.oldest log.entries := by
  obtain ⟨log₀, hboot, hstart⟩ := recalls_start hpages hfits now
  obtain ⟨log, hlog, hrecalls⟩ := recalls_actAll hstart hpages hactions
  refine ⟨log, ?_, hrecalls.shows.entries_eq, log.reads_oldest⟩
  rw [actAll, List.foldl_cons, hboot]
  exact hlog

/-- Three pages, with a record of time, a lap and a half, and another header size on the way. -/
theorem entries_eq_history_lap :
    let actions : List Action :=
      [.perform ⟨5000000⟩ (.append 7), .perform ⟨5000000⟩ .rotate, .boot ⟨0, 2⟩ ⟨0⟩,
        .perform ⟨0⟩ .rotate, .perform ⟨0⟩ (.append 8), .perform ⟨0⟩ (.append 9),
        .perform ⟨0⟩ .rotate]
    (∀ action ∈ actions, action.Regular ⟨3, 4⟩) ∧
      ((History.start 1 ⟨0⟩).actAll ⟨3, 4⟩ actions).entries ⟨3, 4⟩ =
        [(4, 0), (5, 0), (8, 0), (9, 8), (12, 0)] ∧
      ∃ log, (new ⟨3, 4⟩).actAll (.boot ⟨0, 1⟩ ⟨0⟩ :: actions) = running log ∧
        log.entries.map Entry.shown = [(4, 0), (5, 0), (8, 0), (9, 8), (12, 0)] ∧
        Cursor.Reads log.medium log.frontier log.oldest log.entries := by
  intro actions
  have hactions : ∀ action ∈ actions, action.Regular ⟨3, 4⟩ := by decide
  have hhistory : ((History.start 1 ⟨0⟩).actAll ⟨3, 4⟩ actions).entries ⟨3, 4⟩ =
      [(4, 0), (5, 0), (8, 0), (9, 8), (12, 0)] := by decide
  have hfits : (⟨0, 1⟩ : Config).Fits ⟨3, 4⟩ := by decide
  obtain ⟨log, hlog, hentries, hreads⟩ := entries_eq_history (by decide) hfits ⟨0⟩ hactions
  exact ⟨hactions, hhistory, log, hlog, hentries.trans hhistory, hreads⟩

end Device

end RingLog
