import RingLog.Proofs.Log.Calls
import RingLog.Proofs.Ring.Discipline

/-!
# Logs in step with their medium

A log remembers the page it writes and how many records that page holds. It is in step
(`Log.InStep`) when the slot of that page holds just that page with just as many words. Nothing is
assumed of the other slots.

Every operation keeps a log in step, and a boot finds one on a sound medium. Beside that, this
module says what each of them does to the words of every slot.

Main statements: `Log.InStep.pushed`, `Log.InStep.turned`, `Log.InStep.cleared` and
`Log.inStep_recover`.
-/

namespace RingLog

variable {g : Geometry}

theorem anchorWord_ne_erased (now : Instant) : anchorWord now ≠ Word.erased :=
  Record.encode_ne_erased _

theorem erased_not_mem_anchor (now : Instant) : Word.erased ∉ [anchorWord now] :=
  fun h => anchorWord_ne_erased now (List.mem_singleton.mp h).symm

namespace Log

variable {log log' : Log g} {words : List Word}

theorem erased_not_mem_elapsedWords (log : Log g) (now : Instant) :
    Word.erased ∉ log.elapsedWords now := by
  unfold elapsedWords
  dsimp only
  split
  · exact erased_not_mem_anchor now
  · split
    · exact List.not_mem_nil
    · exact fun h => Record.encode_ne_erased _ (List.mem_singleton.mp h).symm

theorem erased_not_mem_append (log : Log g) (now : Instant) {word : Word}
    (hword : word ≠ Word.erased) : Word.erased ∉ log.elapsedWords now ++ [word] := by
  rw [List.mem_append, not_or]
  exact ⟨log.erased_not_mem_elapsedWords now, fun h => hword (List.mem_singleton.mp h).symm⟩

/-- The slot of the page being written holds that page, with as many words as the log says. -/
structure InStep (log : Log g) : Prop where
  powered : log.chip.supply = none
  holds : log.page.Holds log.medium (log.medium.wordsAt log.page.slot)
  used_eq : log.used = (log.medium.wordsAt log.page.slot).length

theorem InStep.of_holds (hpowered : log.chip.supply = none)
    (hholds : log.page.Holds log.medium words) (hused : log.used = words.length) : log.InStep where
  powered := hpowered
  holds := by
    rw [hholds.wordsAt_eq]
    exact hholds
  used_eq := by rw [hholds.wordsAt_eq, hused]

/-- What is left of the words that do not fit is dropped. -/
def fitting (log : Log g) (words : List Word) : List Word :=
  words.take (log.page.capacity g - log.used)

theorem fitting_singleton (log : Log g) (word : Word) :
    log.fitting [word] = if log.used < log.page.capacity g then [word] else [] := by
  split
  · rw [fitting, List.take_of_length_le]
    rw [List.length_singleton]
    omega
  · have hcount : log.page.capacity g - log.used = 0 := by omega
    rw [fitting, hcount, List.take_zero]

/-! ## Writing records -/

theorem Pushed.medium_eq (hp : log.Pushed log' words) (hpowered : log.chip.supply = none) :
    log'.medium = log.medium.applyAll (Page.recordCalls g log.page log.used words) := by
  rw [medium, hp.chip_eq, Chip.medium_performAll_powered hpowered]

theorem Pushed.read_of_ne (hp : log.Pushed log' words) (hpowered : log.chip.supply = none)
    {slot : Nat} (hslot : slot ≠ log.page.slot) (offset : Nat) :
    log'.medium.read slot offset = log.medium.read slot offset := by
  rw [hp.medium_eq hpowered]
  refine Medium.read_applyAll_of_slot_ne (fun call hcall => ?_) offset
  rw [Page.slot_of_mem_recordCalls hcall]
  exact hslot.symm

theorem InStep.holds_pushed (h : log.InStep) (hp : log.Pushed log' words)
    (hwords : Word.erased ∉ words) : log.page.Holds log'.medium
      (log.medium.wordsAt log.page.slot ++ log.fitting words) := by
  rw [hp.medium_eq h.powered, fitting, h.used_eq]
  exact h.holds.applyAll_recordCalls hwords

theorem InStep.pushed (h : log.InStep) (hp : log.Pushed log' words)
    (hwords : Word.erased ∉ words) : log'.InStep := by
  have hholds := h.holds_pushed hp hwords
  rw [← hp.page_eq] at hholds
  refine .of_holds ?_ hholds ?_
  · rw [hp.chip_eq, Chip.supply_performAll_powered h.powered]
  · rw [hp.used_eq, hp.page_eq, List.length_append, ← h.used_eq, fitting, List.length_take,
      Nat.min_comm]

theorem InStep.wordsAt_pushed (h : log.InStep) (hp : log.Pushed log' words)
    (hwords : Word.erased ∉ words) (slot : Nat) : log'.medium.wordsAt slot =
      log.medium.wordsAt slot ++ if slot = log.page.slot then log.fitting words else [] := by
  split
  · rename_i hslot
    rw [hslot]
    exact (h.holds_pushed hp hwords).wordsAt_eq
  · rename_i hslot
    rw [Medium.wordsAt_congr (hp.read_of_ne h.powered hslot), List.append_nil]

theorem InStep.load_pushed (h : log.InStep) (hp : log.Pushed log' words)
    (hwords : Word.erased ∉ words) (slot : Nat) :
    Page.load log'.medium slot = Page.load log.medium slot := by
  by_cases hslot : slot = log.page.slot
  · rw [hslot, (h.holds_pushed hp hwords).load_eq, h.holds.load_eq]
  · exact Medium.load_congr (hp.read_of_ne h.powered hslot)

/-! ## Rotation and erasure -/

theorem chip_turned (log : Log g) :
    log.turned.chip = log.chip.performAll log.rotatedPage.establishCalls :=
  rfl

theorem medium_turned (hpowered : log.chip.supply = none) :
    log.turned.medium = log.medium.applyAll log.rotatedPage.establishCalls := by
  rw [medium, chip_turned, Chip.medium_performAll_powered hpowered]

theorem fits_rotatedPage (log : Log g) : log.rotatedPage.Fits g :=
  log.fits.page_fits log.next_slot_lt _

theorem holds_turned (hpowered : log.chip.supply = none) :
    log.rotatedPage.Holds log.turned.medium [] := by
  rw [medium_turned hpowered]
  exact Page.holds_establish log.fits_rotatedPage

/-- A rotation brings any log in step. -/
theorem inStep_turned (hpowered : log.chip.supply = none) : log.turned.InStep := by
  refine .of_holds ?_ (holds_turned hpowered) rfl
  rw [chip_turned, Chip.supply_performAll_powered hpowered]

theorem InStep.holds_turned (h : log.InStep) : log.rotatedPage.Holds log.turned.medium [] :=
  Log.holds_turned h.powered

theorem InStep.turned (h : log.InStep) : log.turned.InStep :=
  inStep_turned h.powered

theorem InStep.read_turned (h : log.InStep) {slot : Nat} (hslot : slot ≠ g.next log.page.slot)
    (offset : Nat) : log.turned.medium.read slot offset = log.medium.read slot offset := by
  rw [medium_turned h.powered]
  refine Medium.read_applyAll_of_slot_ne (fun call hcall => ?_) offset
  rw [Page.slot_of_mem_establishCalls hcall]
  exact hslot.symm

theorem chip_cleared (log : Log g) :
    log.cleared.chip = log.chip.performAll (formatCalls g log.config.headerSize) :=
  log.chip.format_eq _

theorem holds_cleared (hpowered : log.chip.supply = none) {slot : Nat} (hslot : slot < g.pages) :
    (Page.initial g log.config.headerSize slot).Holds log.cleared.medium [] := by
  rw [medium, chip_cleared, Chip.medium_performAll_powered hpowered]
  exact log.fits.holds_format log.medium hslot

theorem page_cleared (hpowered : log.chip.supply = none) :
    log.cleared.page = Page.initial g log.config.headerSize 0 :=
  (holds_cleared hpowered log.pages_pos).load_eq

theorem InStep.cleared (hpowered : log.chip.supply = none) : log.cleared.InStep := by
  have hholds := holds_cleared hpowered log.pages_pos
  rw [← page_cleared hpowered] at hholds
  refine .of_holds ?_ hholds rfl
  rw [chip_cleared, Chip.supply_performAll_powered hpowered]

theorem InStep.prepared (h : log.InStep) (operation : Operation) :
    (log.prepared operation).InStep := by
  cases operation with
  | append word => exact h
  | anchor => exact h
  | rotate => exact h.turned
  | eraseAll => exact .cleared h.powered

/-! ## Booting -/

variable {chip : Chip g} {config : Config}

theorem medium_recover (hpowered : chip.supply = none) (accepted : config.fault? g = none) :
    (recover chip config accepted).medium =
      chip.medium.applyAll (recoverCalls chip.medium config) := by
  rw [medium, (recover_spec chip config accepted).2.2.2,
    Chip.medium_performAll_powered hpowered]

theorem pages_pos_of_accepted (accepted : config.fault? g = none) : 0 < g.pages :=
  Nat.lt_of_lt_of_le Nat.two_pos (Config.two_le_pages accepted)

theorem holds_recoverCalls {medium : Medium g} (hsound : medium.Sound) (hfits : config.Fits g) :
    (recoveredPage medium config).Holds (medium.applyAll (recoverCalls medium config))
      (medium.wordsAt medium.activeSlot) := by
  have hslot := medium.activeSlot_lt (pages_pos_of_accepted hfits.accepted)
  unfold recoverCalls
  split
  · rename_i herased
    rw [Medium.wordsAt_of_isErased herased]
    refine Page.holds_header ?_ ?_
    · rw [recoveredPage, if_pos herased]
      exact hfits.page_fits hslot _
    · rw [slot_recoveredPage]
      exact herased
  · rename_i hfilled
    rw [recoveredPage, if_neg hfilled]
    exact (hsound _ hslot).resolve_left hfilled

theorem read_recoverCalls (medium : Medium g) (config : Config) {slot : Nat}
    (hslot : slot ≠ medium.activeSlot) (offset : Nat) :
    (medium.applyAll (recoverCalls medium config)).read slot offset = medium.read slot offset := by
  refine Medium.read_applyAll_of_slot_ne (fun call hcall => ?_) offset
  unfold recoverCalls at hcall
  split at hcall
  · rw [List.mem_singleton.mp hcall]
    exact fun heq => hslot (heq.symm.trans (slot_recoveredPage medium config))
  · exact absurd hcall List.not_mem_nil

theorem inStep_recover (hpowered : chip.supply = none) (hsound : chip.medium.Sound)
    (hfits : config.Fits g) : (recover chip config hfits.accepted).InStep := by
  obtain ⟨hpage, hconfig, hused, hchip⟩ := recover_spec chip config hfits.accepted
  have hholds := holds_recoverCalls hsound hfits
  rw [← hpage, ← medium_recover hpowered hfits.accepted] at hholds
  refine .of_holds ?_ hholds hused
  rw [hchip, Chip.supply_performAll_powered hpowered]

/-- Finding the place to write changes no stored word. -/
theorem wordsAt_recover (hpowered : chip.supply = none) (hsound : chip.medium.Sound)
    (hfits : config.Fits g) (slot : Nat) :
    (recover chip config hfits.accepted).medium.wordsAt slot = chip.medium.wordsAt slot := by
  rw [medium_recover hpowered]
  by_cases hslot : slot = chip.medium.activeSlot
  · have hholds := holds_recoverCalls hsound hfits
    rw [hslot]
    have hwords := hholds.wordsAt_eq
    rwa [slot_recoveredPage] at hwords
  · exact Medium.wordsAt_congr (read_recoverCalls chip.medium config hslot)

end Log

end RingLog
