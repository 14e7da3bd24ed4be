import RingLog.Proofs.Log.Footprint
import RingLog.Proofs.Log.Interruption
import RingLog.Proofs.Log.Refinement

/-!
# Starting again

Erasing a log, whatever the medium held when it was opened, leaves what the first boot leaves on a
blank medium. The two take different ways. The erasure formats the ring and goes on in slot zero.
The boot formats it, too, and then looks for the end of the run of numbers, which is in slot zero
because the numbers of the other slots lead up to it and not on from it.

Main statement: `Log.agrees_run_eraseAll`.
-/

namespace RingLog

variable {g : Geometry}

/-- A medium is known by the words that are read. -/
theorem Medium.eq_of_read {medium medium' : Medium g}
    (h : ∀ slot offset, medium.read slot offset = medium'.read slot offset) : medium = medium' := by
  obtain ⟨words⟩ := medium
  obtain ⟨words'⟩ := medium'
  refine congrArg mk (Vector.ext fun index hindex => ?_)
  have hpos : 0 < g.pageSize := Nat.pos_of_mul_pos_left (Nat.zero_lt_of_lt hindex)
  have hcontains : g.Contains (index / g.pageSize) (index % g.pageSize) :=
    ⟨Nat.div_lt_of_lt_mul (Nat.mul_comm _ _ ▸ hindex), Nat.mod_lt _ hpos⟩
  have hsame : g.index (index / g.pageSize) (index % g.pageSize) = index := Nat.div_add_mod' ..
  have hread := h (index / g.pageSize) (index % g.pageSize)
  simpa only [read, dif_pos hcontains, hsame] using hread

/-- What a format leaves does not depend on what was there. -/
theorem Config.Fits.format_congr {config : Config} (h : config.Fits g) (medium medium' : Medium g) :
    medium.applyAll (formatCalls g config.headerSize) =
      medium'.applyAll (formatCalls g config.headerSize) := by
  refine Medium.eq_of_read fun slot offset => ?_
  by_cases hslot : slot < g.pages
  · exact ((h.holds_format medium hslot).read_eq offset).trans
      ((h.holds_format medium' hslot).read_eq offset).symm
  · have hnot : ¬g.Contains slot offset := fun hcontains => hslot hcontains.1
    rw [Medium.read_of_not_contains hnot, Medium.read_of_not_contains hnot]

namespace Log

variable {log log' : Log g}

theorem config_run (log : Log g) (operations : List (Instant × Operation)) :
    (log.run operations).config = log.config := by
  induction operations generalizing log with
  | nil => rfl
  | cons operation rest ih => exact (ih _).trans (log.config_perform ..)

theorem config_boot {chip : Chip g} {config : Config} {now : Instant}
    (h : boot chip config now = .ok log) : log.config = config :=
  (pushed_boot h).config_eq.trans (recover_spec ..).2.1

/-- The logs are at the same place of the same medium, with the same count of dropped records and
the same reference. -/
structure Agrees (log log' : Log g) : Prop where
  medium_eq : log.medium = log'.medium
  page_eq : log.page = log'.page
  used_eq : log.used = log'.used
  dropped_eq : log.dropped = log'.dropped
  reference_eq : log.reference = log'.reference

theorem droppedAfter_congr (hfrontier : log.frontier = log'.frontier)
    (hdropped : log.dropped = log'.dropped) (words : List Word) :
    log.droppedAfter words = log'.droppedAfter words := by
  have hpage : log.page = log'.page := congrArg Cursor.page hfrontier
  have hused : log.used = log'.used := congrArg Cursor.index hfrontier
  rw [droppedAfter, droppedAfter, lost, lost, hpage, hused, hdropped]

/-- Words have the same effect at the same place of the same medium. -/
theorem Pushed.agrees {other other' : Log g} {words : List Word} (hp : log.Pushed log' words)
    (hother : other.Pushed other' words) (hpowered : log.chip.supply = none)
    (hpowered' : other.chip.supply = none) (hmedium : log.medium = other.medium)
    (hfrontier : log.frontier = other.frontier) (hdropped : log'.dropped = other'.dropped)
    (hreference : log'.reference = other'.reference) : log'.Agrees other' := by
  have hpage : log.page = other.page := congrArg Cursor.page hfrontier
  have hused : log.used = other.used := congrArg Cursor.index hfrontier
  refine ⟨?_, ?_, ?_, hdropped, hreference⟩
  · rw [hp.medium_eq hpowered, hother.medium_eq hpowered', hmedium, hpage, hused]
  · rw [hp.page_eq, hother.page_eq, hpage]
  · rw [hp.used_eq, hother.used_eq, hpage, hused]

/-! ## Erasing a log -/

theorem entries_eraseAll (hpowered : log.chip.supply = none) (now : Instant) :
    (log.eraseAll now).entries = [⟨⟨0⟩, anchorWord now⟩] := by
  refine entries_of_fresh (.cleared hpowered) (fullRing_cleared hpowered) ?_
    (fun _ hslot => (holds_cleared hpowered hslot).wordsAt_eq) (log.pushed_eraseAll now)
  rw [page_cleared hpowered]
  rfl

/-- The first boot on a blank medium goes on where an erasure does. -/
theorem found_blank (hpowered : log.chip.supply = none) (hpages : g.pages < 65536) :
    (found { medium := .blank g } log.config log.accepted).chip.supply = none ∧
      (found { medium := .blank g } log.config log.accepted).medium = log.cleared.medium ∧
      (found { medium := .blank g } log.config log.accepted).frontier = log.cleared.frontier := by
  have hblank : ({ medium := .blank g } : Chip g).supply = none := rfl
  obtain ⟨hpage, hmedium⟩ := recover_format hblank log.fits hpages
  obtain ⟨hstep, -, -, hnone⟩ := fullRing_recover_format hblank log.fits hpages rfl
  rw [found_of_unformatted (Medium.isUnformatted_blank g)]
  refine ⟨hstep.powered, ?_, ?_⟩
  · rw [hmedium, medium, log.chip_cleared, Chip.format_eq, Chip.medium_performAll_powered hblank,
      Chip.medium_performAll_powered hpowered]
    exact log.fits.format_congr _ _
  · have hused := hstep.used_eq
    rw [hnone _ hstep.holds.fits.slot_lt, List.length_nil] at hused
    rw [frontier, frontier, hpage, page_cleared hpowered, hused]
    rfl

theorem agrees_eraseAll (hpowered : log.chip.supply = none) (hpages : g.pages < 65536)
    (now : Instant) :
    ∃ first, boot { medium := .blank g } log.config now = .ok first ∧
      (log.eraseAll now).Agrees first := by
  obtain ⟨first, hboot, hpushed⟩ := boot_ok { medium := .blank g } log.accepted now
  obtain ⟨hpowered', hmedium, hfrontier⟩ := found_blank hpowered hpages
  refine ⟨first, hboot, (log.pushed_eraseAll now).agrees hpushed ?_ hpowered' hmedium.symm
    hfrontier.symm ?_ ?_⟩
  · exact (InStep.cleared hpowered).powered
  · have hcount := log.cleared.dropped_writeAnchor (Nat.zero_le _) now
    rw [dropped_boot hboot]
    exact hcount.trans (droppedAfter_congr hfrontier.symm (dropped_recover ..).symm _)
  · rw [reference_boot hboot]
    exact log.cleared.reference_writeAnchor now

/-- Opened on any medium and after any operations, a log that is erased is as the first boot leaves
it on a blank medium, with one anchor and nothing else. -/
theorem agrees_run_eraseAll (hpages : g.pages < 65536) {medium : Medium g} {config : Config}
    {start : Instant} (h : boot { medium } config start = .ok log)
    (operations : List (Instant × Operation)) (now : Instant) :
    ∃ first, boot { medium := .blank g } config now = .ok first ∧
      ((log.run operations).eraseAll now).Agrees first ∧
      ((log.run operations).eraseAll now).entries = [⟨⟨0⟩, anchorWord now⟩] := by
  have hpowered := ((guarded_boot rfl h).run operations).powered
  obtain rfl : (log.run operations).config = config :=
    (log.config_run operations).trans (config_boot h)
  obtain ⟨first, hboot, hagrees⟩ := agrees_eraseAll hpowered hpages now
  exact ⟨first, hboot, hagrees, entries_eraseAll hpowered now⟩

/-- Slot zero has a header of no size, slot one has a header larger than the page. The log is in
slot one and has dropped a word when it is erased. -/
theorem agrees_run_eraseAll_garbage :
    let medium : Medium ⟨3, 4⟩ :=
      ⟨#v[0x01000005, 7, Word.erased, 9, 0x01c81234, 1, 2, 3, 0, 0, 0, 0]⟩
    let config : Config := ⟨0, 1⟩
    let operations : List (Instant × Operation) :=
      [(⟨0⟩, .append 8), (⟨0⟩, .append 8), (⟨0⟩, .rotate), (⟨0⟩, .append 8)]
    let later : Instant := ⟨5000000000⟩
    config.Fits ⟨3, 4⟩ ∧ ∃ log first, boot { medium } config ⟨0⟩ = .ok log ∧
      (log.run operations).frontier = ⟨⟨1, 6, 1⟩, 2⟩ ∧ (log.run operations).dropped = 1 ∧
      boot { medium := .blank ⟨3, 4⟩ } config later = .ok first ∧
      ((log.run operations).eraseAll later).Agrees first ∧
      ((log.run operations).eraseAll later).entries = [⟨⟨0⟩, 5⟩] ∧
      first.frontier = ⟨⟨0, 0, 1⟩, 1⟩ ∧ first.dropped = 0 := by
  intro medium config operations later
  have hfits : config.Fits ⟨3, 4⟩ := by decide
  obtain ⟨log, hboot, hbefore, hdropped⟩ : ∃ log, boot { medium } config ⟨0⟩ = .ok log ∧
      (log.run operations).frontier = ⟨⟨1, 6, 1⟩, 2⟩ ∧ (log.run operations).dropped = 1 :=
    ⟨_, rfl, by decide +kernel, by decide +kernel⟩
  obtain ⟨first, hfirst, hagrees, hentries⟩ :=
    agrees_run_eraseAll (by decide) hboot operations later
  obtain ⟨other, hother, hafter, hnone⟩ :
      ∃ other, boot { medium := .blank ⟨3, 4⟩ } config later = .ok other ∧
        other.frontier = ⟨⟨0, 0, 1⟩, 1⟩ ∧ other.dropped = 0 :=
    ⟨_, rfl, by decide +kernel, by decide +kernel⟩
  rw [hfirst] at hother
  cases hother
  have hanchor : anchorWord later = 5 := by decide
  rw [hanchor] at hentries
  exact ⟨hfits, log, first, hboot, hbefore, hdropped, hfirst, hagrees, hentries, hafter, hnone⟩

end Log

end RingLog
