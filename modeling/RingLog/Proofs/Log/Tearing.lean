import RingLog.Proofs.Log.Interruption
import RingLog.Proofs.Log.Latch
import RingLog.Proofs.Log.Leaves
import RingLog.Proofs.Log.Recording

/-!
# Torn appends

An append writes one record after another. If the power fails in it, the records for which it lasted
are on the page and nothing else has changed, so the medium is that of a log which was given just
these records (`Log.pushAll`). The next boot finds that log and adds its anchor.

Main statement: `Device.append_torn`.
-/

namespace RingLog

variable {g : Geometry}

namespace Log

variable {log log' : Log g} {words : List Word}

/-- Writes some words behind the records of the page, as far as there is room. -/
def pushAll (log : Log g) (words : List Word) : Log g :=
  words.foldl push log

theorem pushed_pushAll (log : Log g) (words : List Word) :
    log.Pushed (log.pushAll words) words := by
  induction words generalizing log with
  | nil => exact .refl log
  | cons word rest ih => exact (log.pushed_push word).trans (ih _)

/-! ## Booting behind a torn append -/

/-- A boot finds the log again on any chip with its medium. -/
theorem OnRing.found_eq (h : log.OnRing) {chip : Chip g} (hpowered : chip.supply = none)
    (hmedium : chip.medium = log.medium) {config : Config} (hfits : config.Fits g) :
    (found chip config hfits.accepted).InStep ∧
      (found chip config hfits.accepted).frontier = log.frontier ∧
      (found chip config hfits.accepted).medium = log.medium := by
  have hring := hmedium.symm ▸ h.ring
  have hformatted := hmedium.symm ▸ h.formatted
  have hactive := hmedium.symm ▸ h.activeSlot_eq
  obtain ⟨hpage, hsame⟩ := recover_of_activeSlot hpowered hring hfits hactive
  have hused := (recover_spec chip config hfits.accepted).2.2.1
  rw [hactive, hmedium, ← h.used_eq] at hused
  rw [found_of_formatted hformatted]
  refine ⟨inStep_recover hpowered hring.sound hfits, ?_, hsame.trans hmedium⟩
  rw [frontier, hpage, hused]
  rfl

/-- The anchor of a boot goes behind the entries of the log that it finds. -/
theorem OnRing.entries_boot (h : log.OnRing) {chip : Chip g} (hpowered : chip.supply = none)
    (hmedium : chip.medium = log.medium) {config : Config} (hfits : config.Fits g) {now : Instant}
    (hpushed : (found chip config hfits.accepted).Pushed log' [anchorWord now]) :
    log'.page = log.page ∧ log'.used = log.used + (log.added [anchorWord now]).length ∧
      log'.entries = log.entries ++ log.added [anchorWord now] := by
  obtain ⟨hstep, hfrontier, hsame⟩ := h.found_eq hpowered hmedium hfits
  have hpage : (found chip config hfits.accepted).page = log.page :=
    congrArg Cursor.page hfrontier
  have hused : (found chip config hfits.accepted).used = log.used :=
    congrArg Cursor.index hfrontier
  have hadded : (found chip config hfits.accepted).added [anchorWord now] =
      log.added [anchorWord now] := by
    rw [added_singleton, added_singleton, hpage, hused]
  refine ⟨hpushed.page_eq.trans hpage, ?_, ?_⟩
  · rw [hpushed.used_eq_add_length, hadded, hused]
  · rw [hstep.entries_pushed hpushed (erased_not_mem_anchor now), hadded,
      entries_congr hfrontier hsame]

/-- The calls of an append or of an anchor write its records. -/
theorem calls_of_clears_eq_false (log : Log g) (now : Instant) {operation : Operation}
    (hadds : operation.clears = false) : log.calls now operation =
      Page.recordCalls g log.page log.used (log.written now operation) := by
  cases operation with
  | append word => rfl
  | anchor => rfl
  | rotate | eraseAll => cases hadds

/-- The power fails in an append behind some of its records: the boot finds just these. -/
theorem OnRing.entries_torn (h : log.OnRing) {now : Instant} {operation : Operation}
    (hregular : (Action.perform now operation).Regular g) (hadds : operation.clears = false)
    (count : Nat) {chip : Chip g} (hpowered : chip.supply = none)
    (hmedium : chip.medium = log.medium.applyAll ((log.calls now operation).take count))
    {config : Config} (hfits : config.Fits g) {now' : Instant}
    (hpushed : (found chip config hfits.accepted).Pushed log' [anchorWord now']) :
    log'.page = log.page ∧ ∃ anchors,
      anchors = (if log.used + ((log.recorded now operation).take count).length <
          log.page.capacity g then
        [⟨log.page.position g (log.used + ((log.recorded now operation).take count).length),
          anchorWord now'⟩] else []) ∧
      log'.used = log.used + ((log.recorded now operation).take count).length + anchors.length ∧
      log'.entries = log.entries ++ (log.recorded now operation).take count ++ anchors := by
  have hwords : Word.erased ∉ (log.written now operation).take count :=
    fun hmem => log.erased_not_mem_written hregular (List.mem_of_mem_take hmem)
  have hrecorded : log.recorded now operation = log.added (log.written now operation) := by
    cases operation with
    | append word => rfl
    | anchor => rfl
    | rotate | eraseAll => cases hadds
  have htorn := log.pushed_pushAll ((log.written now operation).take count)
  rw [log.calls_of_clears_eq_false now hadds, Page.take_recordCalls,
    ← htorn.medium_eq h.powered] at hmedium
  obtain ⟨hpage, hused, hentries⟩ := (h.pushed htorn hwords).entries_boot
    hpowered hmedium hfits hpushed
  have hbefore := htorn.used_eq_add_length
  rw [added_take, ← hrecorded] at hbefore
  rw [h.toInStep.entries_pushed htorn hwords, added_take, ← hrecorded] at hentries
  refine ⟨hpage.trans htorn.page_eq, _, ?_, ?_, hentries⟩
  · rw [added_singleton, htorn.page_eq, hbefore]
  · rw [hused, hbefore]

end Log

namespace Device

variable {device : Device g} {log : Log g}

theorem boot_of_act {config : Config} {now : Instant}
    (h : device.act (.boot config now) = running log) :
    Log.boot device.chip config now = .ok log := by
  unfold act at h
  dsimp only at h
  split at h
  · rename_i hboot
    cases h
    exact hboot
  · cases h

/-- A log that was opened and used without interruption is given a record or an anchor, and the
power fails behind some of the calls. Then the next boot goes on with the same page, and the entries
are those from before, at their positions, with as many of the new ones behind them as there were
calls, and the anchor of the boot where there is a slot left for it. The boot asks for a rotation
just when no more slots than the reserve are left. -/
theorem append_torn (hpages : g.pages < 65536) {actions : List Action}
    (hactions : ∀ action ∈ actions, action.Regular g)
    (hlog : (new g).actAll actions = running log) {now : Instant} {operation : Operation}
    (hregular : (Action.perform now operation).Regular g) (hadds : operation.clears = false)
    {config : Config} (hfits : config.Fits g) (count : Nat) (now' : Instant) :
    ∃ log' stored anchors,
      (running log).run [⟨.perform now operation, some count⟩, ⟨.boot config now', none⟩] =
        running log' ∧
      (log.perform now operation).entries = log.entries ++ stored ∧
      log'.page = log.page ∧
      log'.entries = log.entries ++ stored.take count ++ anchors ∧
      anchors = (if log.used + (stored.take count).length < log.page.capacity g then
        [⟨log.page.position g (log.used + (stored.take count).length), anchorWord now'⟩] else []) ∧
      log'.used = log.used + (stored.take count).length + anchors.length ∧
      (log'.rotationPending = true ↔ log'.free ≤ config.reserve.toNat) := by
  obtain ⟨history, hrecalls, -⟩ := recalls_of_running hpages hactions hlog
  have hring := hrecalls.shows.onRing
  have hfull := hrecalls.shows.full
  obtain ⟨chip, log', hpowered, hmedium, hrun, hpushed⟩ :=
    hring.toInStep.run_cut hregular count hfits now'
  obtain ⟨hpage, anchors, hanchors, hused, hentries⟩ :=
    hring.entries_torn hregular hadds count hpowered hmedium hfits hpushed
  have hperformed := hring.entries_perform hfull hregular
  have hkept : log.recycled operation = 0 := by
    cases operation with
    | append word => rfl
    | anchor => rfl
    | rotate | eraseAll => cases hadds
  rw [hkept, List.drop_zero] at hperformed
  obtain ⟨-, hconfig, hpending, -⟩ := Log.latched_boot (boot_of_act hrun)
  rw [Log.Low, hconfig] at hpending
  exact ⟨log', _, anchors, hrun, hperformed, hpage, hentries, hanchors, hused, hpending⟩

/-- On a page with two slots left, the power fails behind the record of the five milliseconds. The
anchor of the boot takes the slot that the word was meant for, and the page is full. -/
theorem append_torn_last_slots :
    let actions : List Action := [.boot ⟨0, 1⟩ ⟨0⟩, .perform ⟨0⟩ (.append 7)]
    let later : Instant := ⟨5000000⟩
    (∀ action ∈ actions, action.Regular ⟨2, 5⟩) ∧
      (Action.perform later (.append 8)).Regular ⟨2, 5⟩ ∧ (Operation.append 8).clears = false ∧
      (⟨0, 1⟩ : Config).Fits ⟨2, 5⟩ ∧ ∃ log log', (new ⟨2, 5⟩).actAll actions = running log ∧
        (log.append later 8).entries.map Entry.word = [0, 7, 0x80000005, 8] ∧
        (running log).run [⟨.perform later (.append 8), some 1⟩, ⟨.boot ⟨0, 1⟩ later, none⟩] =
          running log' ∧
        log'.entries = log.entries ++ [⟨⟨2⟩, 0x80000005⟩, ⟨⟨3⟩, 0⟩] ∧ log'.used = 4 ∧
        log'.rotationPending = true := by
  intro actions later
  have hactions : ∀ action ∈ actions, action.Regular ⟨2, 5⟩ := by decide
  have hregular : (Action.perform later (.append 8)).Regular ⟨2, 5⟩ := by decide
  have hfits : (⟨0, 1⟩ : Config).Fits ⟨2, 5⟩ := by decide
  obtain ⟨log, hlog, hpage, hbefore, hwhole⟩ : ∃ log, (new ⟨2, 5⟩).actAll actions = running log ∧
      log.frontier = ⟨⟨0, 0, 1⟩, 2⟩ ∧ log.entries = [⟨⟨0⟩, 0⟩, ⟨⟨1⟩, 7⟩] ∧
      (log.append later 8).entries =
        [⟨⟨0⟩, 0⟩, ⟨⟨1⟩, 7⟩, ⟨⟨2⟩, 0x80000005⟩, ⟨⟨3⟩, 8⟩] :=
    ⟨_, rfl, by decide +kernel, by decide +kernel, by decide +kernel⟩
  obtain ⟨log', stored, anchors, hrun, hstored, hsame, hentries, hanchors, hused, hpending⟩ :=
    append_torn (by decide) hactions hlog hregular rfl hfits 1 later
  have hpage' : log.page = ⟨0, 0, 1⟩ := congrArg Cursor.page hpage
  have hindex : log.used = 2 := congrArg Cursor.index hpage
  have hkept : stored = [⟨⟨2⟩, 0x80000005⟩, ⟨⟨3⟩, 8⟩] := by
    rw [Log.perform, hwhole, hbefore] at hstored
    exact (List.cons.inj (List.cons.inj hstored).2).2.symm
  rw [hkept, hpage', hindex] at hanchors
  have hlast : anchors = [⟨⟨3⟩, 0⟩] := hanchors.trans (by decide)
  rw [hkept, hlast, hindex] at hused
  have hfour : log'.used = 4 := hused
  refine ⟨hactions, hregular, rfl, hfits, log, log', hlog, ?_, hrun, ?_, hfour, hpending.mpr ?_⟩
  · rw [hwhole]
    rfl
  · rw [hentries, hkept, hlast, List.append_assoc]
    rfl
  · rw [Log.free, hsame, hpage', hfour]
    decide

end Device

end RingLog
