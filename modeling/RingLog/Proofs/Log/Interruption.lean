import RingLog.Proofs.Log.Entries
import RingLog.Proofs.Log.Recovery

/-!
# Interrupted rotations

A rotation recycles one page. If the power fails in it, the log opened by the next boot still has
the words of all other pages (`Log.Keeps`), with one exception: the power fails just behind the
erasure of slot zero. The medium then looks as if it were never used, so the boot formats it, and
nothing is left of the log.

Main statements: `Device.keeps_iff` and `Device.not_keeps`.
-/

namespace RingLog

variable {g : Geometry}

namespace Log

/-- The words of all slots but the one that a rotation recycles. -/
def keptWords (log : Log g) : List Word :=
  (g.lap (g.next log.page.slot)).flatMap log.medium.wordsAt

/-- A rotation that the power lasts for some calls of, and the boot behind it. -/
def cutRotation (count : Nat) (now : Instant) (config : Config) (now' : Instant) : List Event :=
  [⟨.perform now .rotate, some count⟩, ⟨.boot config now', none⟩]

/-- Behind the interrupted rotation the log has all words that are to be kept, in their order. Only
words of the page to be recycled come before them, and only anchors of the rotation and of the
boot come after them. -/
def Keeps (log : Log g) (count : Nat) (now : Instant) (config : Config) (now' : Instant) : Prop :=
  ∃ log' older newer, (Device.running log).run (cutRotation count now config now') = .running log' ∧
    log'.entries.map Entry.word = older ++ log.keptWords ++ newer ∧
    (older = [] ∨ older = log.medium.wordsAt (g.next log.page.slot)) ∧
    newer.Sublist [anchorWord now, anchorWord now']

variable {log : Log g}

/-- The words before a rotation, the page to be recycled first. -/
theorem InStep.map_word_entries_rotate (h : log.InStep) : log.entries.map Entry.word =
    log.medium.wordsAt (g.next log.page.slot) ++ log.keptWords := by
  rw [h.map_word_entries, Geometry.lap_concat log.slot_lt log.two_le_pages, List.flatMap_cons]
  rfl

/-- Every slot but the recycled one has its words still. -/
theorem keptWords_eq {medium : Medium g} (hread : ∀ slot, slot ≠ g.next log.page.slot →
      ∀ offset, medium.read slot offset = log.medium.read slot offset) :
    (g.lap (g.next log.page.slot)).flatMap medium.wordsAt = log.keptWords := by
  refine List.flatMap_congr fun slot hslot => ?_
  have hne := ((Geometry.mem_lap log.next_slot_lt log.two_le_pages).mp hslot).2
  exact Medium.wordsAt_congr (hread slot hne)

/-! ## What the boot finds -/

/-- The boot behind an interrupted operation adds an anchor to the log that it finds. -/
theorem InStep.run_cut (h : log.InStep) {now : Instant} {operation : Operation}
    (hoperation : (Action.perform now operation).Regular g) (count : Nat) {config : Config}
    (hfits : config.Fits g) (now' : Instant) :
    ∃ chip : Chip g, ∃ log', chip.supply = none ∧
      chip.medium = log.medium.applyAll ((log.calls now operation).take count) ∧
      (Device.running log).run [⟨.perform now operation, some count⟩, ⟨.boot config now', none⟩] =
        .running log' ∧
      (found chip config hfits.accepted).Pushed log' [anchorWord now'] := by
  have hpowered : (Device.running log).chip.supply = none := h.powered
  obtain ⟨chip, hsupply, hmedium, hcut⟩ : ∃ chip : Chip g, chip.supply = none ∧
      chip.medium = log.medium.applyAll ((log.calls now operation).take count) ∧
      (Device.running log).step ⟨.perform now operation, some count⟩ = .off chip :=
    ⟨_, rfl, rfl, Device.step_interrupted hpowered hoperation count⟩
  obtain ⟨log', hboot, hpushed⟩ := Device.boot_of_fits chip hfits now'
  refine ⟨chip, log', hsupply, hmedium, ?_, hpushed⟩
  rw [Device.run, List.foldl_cons, hcut]
  exact Device.act_boot hboot

theorem InStep.run_cutRotation (h : log.InStep) (count : Nat) (now : Instant) {config : Config}
    (hfits : config.Fits g) (now' : Instant) :
    ∃ chip : Chip g, ∃ log', chip.supply = none ∧
      chip.medium = log.medium.applyAll ((log.calls now .rotate).take count) ∧
      (Device.running log).run (cutRotation count now config now') = .running log' ∧
      (found chip config hfits.accepted).Pushed log' [anchorWord now'] := by
  have haction : (Action.perform now .rotate).Regular g := trivial
  exact h.run_cut haction count hfits now'

variable {chip : Chip g} {config : Config} {log' : Log g} {now' : Instant}

/-- What a log yields that a boot opens on a ring. -/
theorem map_word_entries_boot {active : Page} (hpowered : chip.supply = none)
    (hring : chip.medium.Ring active) (hformatted : chip.medium.isUnformatted = false)
    (hfits : config.Fits g)
    (hpushed : (found chip config hfits.accepted).Pushed log' [anchorWord now']) :
    ∃ newer, newer.Sublist [anchorWord now'] ∧ log'.entries.map Entry.word =
      (g.lap chip.medium.activeSlot ++ [chip.medium.activeSlot]).flatMap chip.medium.wordsAt ++
        newer := by
  rw [found_of_formatted hformatted] at hpushed
  have hstep := inStep_recover hpowered hring.sound hfits
  refine ⟨(recover chip config hfits.accepted).fitting [anchorWord now'],
    List.take_sublist _ _, ?_⟩
  rw [hstep.map_word_entries_pushed hpushed (erased_not_mem_anchor now'),
    map_word_entries_recover hpowered hring.sound hfits]

/-- On a ring with its oldest page erased, a boot finds the words of the others. -/
theorem flatMap_lap_of_isErased {medium : Medium g} {active : Page} (hring : medium.Ring active)
    (hpages : 2 ≤ g.pages) (herased : medium.isErased (g.next active.slot)) {slot : Nat}
    (hslot : slot = active.slot ∨ slot = g.next active.slot) :
    (g.lap slot ++ [slot]).flatMap medium.wordsAt =
      (g.lap (g.next active.slot)).flatMap medium.wordsAt := by
  have hnone := Medium.wordsAt_of_isErased herased
  rcases hslot with rfl | rfl
  · rw [Geometry.lap_concat hring.slot_lt hpages, List.flatMap_cons, hnone, List.nil_append]
  · rw [List.flatMap_append, List.flatMap_singleton, hnone, List.append_nil]

/-! ## The cuts of a rotation -/

variable {now : Instant}

/-- The power fails before the erasure: nothing happens to the log. -/
theorem OnRing.keeps_zero (h : log.OnRing) (hfits : config.Fits g) :
    log.Keeps 0 now config now' := by
  obtain ⟨chip, log', hsupply, hmedium, hrun, hpushed⟩ := h.run_cutRotation 0 now hfits now'
  have hsame : chip.medium = log.medium := hmedium
  have hring := hsame.symm ▸ h.ring
  have hformatted := hsame.symm ▸ h.formatted
  obtain ⟨newer, hnewer, hwords⟩ := map_word_entries_boot hsupply hring hformatted hfits hpushed
  refine ⟨log', log.medium.wordsAt (g.next log.page.slot), newer, hrun, ?_, .inr rfl,
    hnewer.cons _⟩
  rw [hwords, hsame, h.activeSlot_eq, ← h.map_word_entries, h.map_word_entries_rotate]

/-- With the oldest slot erased, and that not slot zero, the medium is formatted still. The erased
slot reads as number 0xffff, which may be the one that the scan looks for. -/
theorem OnRing.erased (h : log.OnRing) (hpages : g.pages < 65536)
    (hnext : g.next log.page.slot ≠ 0) {medium : Medium g}
    (hmedium : medium = log.medium.apply (.erase (g.next log.page.slot))) :
    medium.Ring log.page ∧ medium.isUnformatted = false ∧
      medium.isErased (g.next log.page.slot) ∧ medium.activeSlot =
        if log.page.number + 1 = 0xffff then g.next log.page.slot else log.page.slot := by
  have hring := hmedium.symm ▸ h.ring.erase_oldest log.two_le_pages
  have herased : medium.isErased (g.next log.page.slot) :=
    hmedium ▸ log.medium.isErased_apply_erase _
  have hother : (Call.erase (g.next log.page.slot)).slot ≠ 0 := hnext
  refine ⟨hring, ?_, herased, hring.activeSlot_of_isErased hpages herased hnext⟩
  rw [Medium.isUnformatted, hmedium, Medium.read_apply_of_slot_ne hother]
  exact h.formatted

/-- The power fails behind the erasure of a slot other than zero: the words of that slot are lost,
and the erased slot may become the active one. -/
theorem OnRing.keeps_one (h : log.OnRing) (hpages : g.pages < 65536) (hfits : config.Fits g)
    (hnext : g.next log.page.slot ≠ 0) : log.Keeps 1 now config now' := by
  obtain ⟨chip, log', hsupply, hmedium, hrun, hpushed⟩ := h.run_cutRotation 1 now hfits now'
  have herase : chip.medium = log.medium.apply (.erase (g.next log.page.slot)) := hmedium
  have hread : ∀ slot, slot ≠ g.next log.page.slot → ∀ offset,
      chip.medium.read slot offset = log.medium.read slot offset := by
    intro slot hslot
    rw [herase]
    exact Medium.read_apply_of_slot_ne fun heq => hslot heq.symm
  obtain ⟨hring, hformatted, herased, hfound⟩ := h.erased hpages hnext herase
  have hactive : chip.medium.activeSlot = log.page.slot ∨
      chip.medium.activeSlot = g.next log.page.slot := by
    rw [hfound]
    split
    · exact .inr rfl
    · exact .inl rfl
  obtain ⟨newer, hnewer, hwords⟩ := map_word_entries_boot hsupply hring hformatted hfits hpushed
  refine ⟨log', [], newer, hrun, ?_, .inl rfl, hnewer.cons _⟩
  rw [hwords, flatMap_lap_of_isErased hring log.two_le_pages herased hactive, keptWords_eq hread]
  rfl

/-- The power fails behind the header: the new page is the active one. -/
theorem OnRing.keeps_add_two (h : log.OnRing) (hpages : g.pages < 65536) (hfits : config.Fits g)
    (count : Nat) : log.Keeps (count + 2) now config now' := by
  obtain ⟨chip, log', hsupply, hmedium, hrun, hpushed⟩ :=
    h.run_cutRotation (count + 2) now hfits now'
  have hfull := hmedium.symm ▸ h.fullRing_rotate_take now count
  have hslot : log.rotatedPage.slot = g.next log.page.slot := rfl
  have hactive := hfull.activeSlot_eq hpages
  have hformatted := (hfull.inTurn 0 log.pages_pos).1.isUnformatted_eq
  have hanchor : Word.erased ∉ [anchorWord now].take count :=
    fun hmem => erased_not_mem_anchor now (List.mem_of_mem_take hmem)
  have hholds := h.holds_turned.applyAll_recordCalls hanchor
  rw [h.medium_rotate_take] at hmedium
  have hread : ∀ slot, slot ≠ g.next log.page.slot → ∀ offset,
      chip.medium.read slot offset = log.medium.read slot offset := by
    intro slot hne offset
    rw [← h.read_turned hne, hmedium]
    refine Medium.read_applyAll_of_slot_ne (fun call hcall => ?_) offset
    rw [Page.slot_of_mem_recordCalls hcall]
    exact hne.symm
  have hanchors := hholds.wordsAt_eq
  rw [List.length_nil, ← hmedium, hslot, List.nil_append] at hanchors
  obtain ⟨newer, hnewer, hwords⟩ :=
    map_word_entries_boot hsupply hfull.ring hformatted hfits hpushed
  refine ⟨log', [], chip.medium.wordsAt (g.next log.page.slot) ++ newer, hrun, ?_, .inl rfl, ?_⟩
  · rw [hwords, hactive, hslot, List.flatMap_append, List.flatMap_singleton, keptWords_eq hread,
      List.nil_append, List.append_assoc]
  · rw [hanchors]
    exact ((List.take_sublist ..).trans (List.take_sublist ..)).append hnewer

/-- A log opened on a medium without words has only the anchor of its boot. -/
theorem entries_of_fresh (hstep : log.InStep) (hfull : log.medium.FullRing log.page)
    (hnumber : log.page.number = 0) (hnone : ∀ slot < g.pages, log.medium.wordsAt slot = [])
    (hpushed : log.Pushed log' [anchorWord now']) :
    log'.entries = [⟨⟨0⟩, anchorWord now'⟩] := by
  have hanchor := erased_not_mem_anchor now'
  have hwords := hstep.wordsAt_pushed hpushed hanchor
  have hfitting : log.fitting [anchorWord now'] = [anchorWord now'] := by
    have hroom := hstep.holds.fits.capacity_pos
    have hused := hstep.used_eq
    rw [hnone _ log.slot_lt, List.length_nil] at hused
    rw [fitting, List.take_of_length_le]
    rw [List.length_singleton]
    omega
  have hlap : (g.lap log.page.slot).flatMap (fun slot =>
      (Page.load log'.medium slot).entries g (log'.medium.wordsAt slot)) = [] := by
    refine List.flatMap_eq_nil_iff.mpr fun slot hslot => ?_
    obtain ⟨hlt, hne⟩ := (Geometry.mem_lap log.slot_lt log.two_le_pages).mp hslot
    rw [hwords, if_neg hne, hnone slot hlt]
    rfl
  rw [(hstep.pushed hpushed hanchor).entries_eq (hstep.fullRing_pushed hfull hpushed hanchor),
    hpushed.page_eq, List.flatMap_append, hlap, List.flatMap_singleton, hwords, if_pos rfl,
    hfitting, hnone _ log.slot_lt, hstep.load_pushed hpushed hanchor, hfull.load_eq]
  simp [Page.entries, Page.position, Position.of, hnumber]

/-- The power fails behind the erasure of slot zero: the boot formats the medium. -/
theorem OnRing.entries_lost (h : log.OnRing) (hpages : g.pages < 65536) (hfits : config.Fits g)
    (hnext : g.next log.page.slot = 0) (now now' : Instant) :
    ∃ log', (Device.running log).run (cutRotation 1 now config now') = .running log' ∧
      log'.entries = [⟨⟨0⟩, anchorWord now'⟩] := by
  obtain ⟨chip, log', hsupply, hmedium, hrun, hpushed⟩ := h.run_cutRotation 1 now hfits now'
  have herase : chip.medium = log.medium.apply (.erase 0) := hnext ▸ hmedium
  have hunformatted : chip.medium.isUnformatted :=
    Medium.isUnformatted_of_isErased (herase ▸ log.medium.isErased_apply_erase 0)
  have hfound := found_of_unformatted hunformatted hfits.accepted
  obtain ⟨hstep, hfull, hpage, hnone⟩ := fullRing_recover_format hsupply hfits hpages hfound
  exact ⟨log', hrun, entries_of_fresh hstep hfull (by rw [hpage]; rfl) hnone hpushed⟩

theorem OnRing.keptWords_ne_nil (h : log.OnRing) (hused : 0 < log.used) :
    log.keptWords ≠ [] := by
  have hne := Geometry.next_ne_self log.slot_lt log.two_le_pages
  have hslot : log.page.slot ∈ g.lap (g.next log.page.slot) :=
    (Geometry.mem_lap log.next_slot_lt log.two_le_pages).mpr ⟨log.slot_lt, hne.symm⟩
  rw [h.used_eq] at hused
  obtain ⟨word, hword⟩ := List.exists_mem_of_length_pos hused
  exact List.ne_nil_of_mem (List.mem_flatMap.mpr ⟨_, hslot, hword⟩)

/-- Words that are lost are not among the anchors of any two boots. -/
theorem OnRing.not_keeps_of_lost (h : log.OnRing) (hpages : g.pages < 65536)
    (hfits : config.Fits g) (hnext : g.next log.page.slot = 0) (hkept : log.keptWords ≠ []) :
    ¬∀ now now', log.Keeps 1 now config now' := by
  intro hkeeps
  obtain ⟨word, hword⟩ := List.exists_mem_of_ne_nil _ hkept
  have hanchor : ∀ now', word = anchorWord now' := by
    intro now'
    obtain ⟨log', hrun, hentries⟩ := h.entries_lost hpages hfits hnext now' now'
    obtain ⟨_, older, newer, hrun', hwords, -⟩ := hkeeps now' now'
    rw [hrun] at hrun'
    cases hrun'
    rw [hentries] at hwords
    have hmem : word ∈ older ++ log.keptWords ++ newer :=
      List.mem_append_left _ (List.mem_append_right _ hword)
    rw [← hwords] at hmem
    exact List.mem_singleton.mp hmem
  have hsame : anchorWord ⟨0⟩ = anchorWord ⟨Instant.nanosPerSecond⟩ :=
    (hanchor _).symm.trans (hanchor _)
  exact absurd hsame (by decide)

end Log

/-! ## Reachable logs -/

namespace Device

variable {device : Device g}

theorem ringed_actAll (hpages : g.pages < 65536) {actions : List Action}
    (hactions : ∀ action ∈ actions, action.Regular g) : ((new g).actAll actions).Ringed :=
  actAll_induction (ringed_new g) fun _ action haction h => h.act hpages (hactions action haction)

/-- Behind every action there is a word on the page being written. -/
theorem Ringed.used_pos_act (h : device.Ringed) (hpages : g.pages < 65536) {action : Action}
    (haction : action.Regular g) {log' : Log g} (hlog : device.act action = running log') :
    0 < log'.used := by
  cases action with
  | boot config now =>
    obtain ⟨log, hboot, hpushed⟩ := boot_of_fits device.chip haction now
    rw [act_boot hboot] at hlog
    cases hlog
    have hring := Log.onRing_found h.powered h.ring haction hpages
    exact hpushed.used_pos hring.holds.fits.capacity_pos (List.cons_ne_nil _ _)
  | perform now operation =>
    cases device with
    | off chip => cases hlog
    | running log =>
      cases hlog
      have hring := (h.onRing log rfl).prepared hpages operation
      exact (log.pushed_perform now operation).used_pos hring.holds.fits.capacity_pos
        (log.written_ne_nil now operation)

theorem used_pos_actAll (hpages : g.pages < 65536) {actions : List Action}
    (hactions : ∀ action ∈ actions, action.Regular g) {log : Log g}
    (hlog : (new g).actAll actions = running log) : 0 < log.used := by
  rcases actions.eq_nil_or_concat' with rfl | ⟨earlier, last, rfl⟩
  · cases hlog
  · rw [actAll_append] at hlog
    have hearlier := ringed_actAll hpages fun action haction =>
      hactions action (List.mem_append_left _ haction)
    exact hearlier.used_pos_act hpages (hactions last List.mem_concat_self) hlog

/-- A log that was opened and written to without interruption keeps all words outside the page to
be recycled, wherever the power fails in a rotation, but for one case: the power fails just behind
the erasure, and it is slot zero that was erased. Then nothing is left of the log, though there is
always something to keep. -/
theorem keeps_iff (hpages : g.pages < 65536) {actions : List Action}
    (hactions : ∀ action ∈ actions, action.Regular g) {log : Log g}
    (hlog : (new g).actAll actions = running log) {config : Config} (hfits : config.Fits g)
    (count : Nat) :
    log.entries.map Entry.word =
        log.medium.wordsAt (g.next log.page.slot) ++ log.keptWords ∧
      ((∀ now now', log.Keeps count now config now') ↔
        ¬(count = 1 ∧ g.next log.page.slot = 0)) ∧
      (count = 1 → g.next log.page.slot = 0 → log.keptWords ≠ [] ∧ ∀ now now',
        ∃ log', (running log).run (Log.cutRotation count now config now') = running log' ∧
          log'.entries = [⟨⟨0⟩, anchorWord now'⟩]) := by
  have hring := (ringed_actAll hpages hactions).onRing log hlog
  have hkept := hring.keptWords_ne_nil (used_pos_actAll hpages hactions hlog)
  refine ⟨hring.map_word_entries_rotate, ⟨fun hkeeps hlost => ?_, fun hother now now' => ?_⟩, ?_⟩
  · obtain ⟨rfl, hnext⟩ := hlost
    exact hring.not_keeps_of_lost hpages hfits hnext hkept hkeeps
  · match count with
    | 0 => exact hring.keeps_zero hfits
    | 1 => exact hring.keeps_one hpages hfits fun hnext => hother ⟨rfl, hnext⟩
    | count + 2 => exact hring.keeps_add_two hpages hfits count
  · rintro rfl hnext
    exact ⟨hkept, hring.entries_lost hpages hfits hnext⟩

/-- On two pages, the second rotation erases slot zero. -/
theorem not_keeps :
    let actions : List Action := [.boot ⟨4, 1⟩ (.ofSeconds 100),
      .perform (.ofSeconds 100) .rotate, .perform (.ofSeconds 100) (.append 0x81000007)]
    ∃ log, (new ⟨2, 32⟩).actAll actions = running log ∧ log.keptWords = [100, 0x81000007] ∧
      ¬log.Keeps 1 (.ofSeconds 101) ⟨4, 1⟩ (.ofSeconds 101) := by
  intro actions
  obtain ⟨log, hlog, hkept, hslot⟩ : ∃ log, (new ⟨2, 32⟩).actAll actions = running log ∧
      log.keptWords = [100, 0x81000007] ∧ log.page.slot = 1 :=
    ⟨_, rfl, by decide +kernel, by decide +kernel⟩
  have hactions : ∀ action ∈ actions, action.Regular ⟨2, 32⟩ := by decide
  have hring := (ringed_actAll (by decide) hactions).onRing log hlog
  have hfits : (⟨4, 1⟩ : Config).Fits ⟨2, 32⟩ := by decide
  refine ⟨log, hlog, hkept, ?_⟩
  rintro ⟨log', older, newer, hrun', hwords, -⟩
  obtain ⟨_, hrun, hentries⟩ := hring.entries_lost (by decide) hfits (by rw [hslot]; decide)
    (.ofSeconds 101) (.ofSeconds 101)
  rw [hrun] at hrun'
  cases hrun'
  rw [hentries, hkept] at hwords
  have hlength := congrArg List.length hwords
  simp only [List.map_cons, List.map_nil, List.length_append, List.length_cons,
    List.length_nil] at hlength
  omega

/-- The rotation behind that one does not erase slot zero. -/
theorem keeps_iff_third_rotation :
    let actions : List Action := [.boot ⟨4, 1⟩ ⟨0⟩, .perform ⟨0⟩ .rotate, .perform ⟨0⟩ .rotate]
    ∃ log, (new ⟨2, 32⟩).actAll actions = running log ∧
      ((∀ now now', log.Keeps 1 now ⟨4, 1⟩ now') ↔
        ¬(1 = 1 ∧ Geometry.next ⟨2, 32⟩ log.page.slot = 0)) ∧
      ∀ now now', log.Keeps 1 now ⟨4, 1⟩ now' := by
  intro actions
  obtain ⟨log, hlog, hslot⟩ : ∃ log, (new ⟨2, 32⟩).actAll actions = running log ∧
      log.page.slot = 0 := ⟨_, rfl, by decide +kernel⟩
  have hactions : ∀ action ∈ actions, action.Regular ⟨2, 32⟩ := by decide
  have hiff := (keeps_iff (by decide) hactions hlog
    (by decide : (⟨4, 1⟩ : Config).Fits ⟨2, 32⟩) 1).2.1
  exact ⟨log, hlog, hiff, hiff.mpr (by rw [hslot]; decide)⟩

end Device

end RingLog
