import RingLog.Proofs.Log.Device
import RingLog.Proofs.Log.InStep

/-!
# Words are written once

Programming a word that is not erased would merge two values without any error. No run does that,
whatever is carried out and wherever the power fails, within a format too: the medium is sound at
every moment, a running log is in step with it, and the calls of every operation and of every boot
are then allowed one after another.

Main statement: `Device.writesOnce_run`.
-/

namespace RingLog

variable {g : Geometry}

/-! ## The calls of operations and boots are allowed -/

theorem allowsAll_formatCalls (medium : Medium g) {headerSize : UInt8}
    (hpos : 0 < headerSize.toNat) (hlt : headerSize.toNat < g.pageSize) :
    medium.AllowsAll (formatCalls g headerSize) := by
  have hslots : ∀ (slots : List Nat) (medium : Medium g), (∀ slot ∈ slots, slot < g.pages) →
      medium.AllowsAll (slots.flatMap fun slot =>
        (Page.initial g headerSize slot).establishCalls) := by
    intro slots
    induction slots with
    | nil => exact fun _ _ => trivial
    | cons slot rest ih =>
      intro medium hslots
      rw [List.flatMap_cons, Medium.allowsAll_append]
      refine ⟨Medium.allowsAll_establishCalls ?_, ih _ ?_⟩
      · exact Page.fits_initial hpos hlt (hslots slot List.mem_cons_self)
      · exact fun other hother => hslots other (List.mem_cons_of_mem _ hother)
  exact hslots _ medium fun slot hslot => List.mem_range.mp hslot

namespace Log

variable {log : Log g}

theorem erased_not_mem_written (log : Log g) {now : Instant} {operation : Operation}
    (hoperation : (Action.perform now operation).Regular g) :
    Word.erased ∉ log.written now operation := by
  cases operation with
  | append word => exact log.erased_not_mem_append now hoperation
  | anchor | rotate | eraseAll => exact erased_not_mem_anchor now

theorem InStep.allowsAll_recordCalls (h : log.InStep) {words : List Word}
    (hwords : Word.erased ∉ words) :
    log.medium.AllowsAll (Page.recordCalls g log.page log.used words) := by
  rw [h.used_eq]
  exact Medium.allowsAll_recordCalls h.holds hwords

theorem InStep.allowsAll_calls (h : log.InStep) {now : Instant} {operation : Operation}
    (hoperation : (Action.perform now operation).Regular g) :
    log.medium.AllowsAll (log.calls now operation) := by
  have hanchor := erased_not_mem_anchor now
  cases operation with
  | append word => exact h.allowsAll_recordCalls (log.erased_not_mem_append now hoperation)
  | anchor => exact h.allowsAll_recordCalls hanchor
  | rotate =>
    refine Medium.allowsAll_append.mpr ⟨Medium.allowsAll_establishCalls log.fits_rotatedPage, ?_⟩
    rw [← medium_turned h.powered]
    exact Medium.allowsAll_recordCalls h.holds_turned hanchor
  | eraseAll =>
    refine Medium.allowsAll_append.mpr
      ⟨allowsAll_formatCalls _ log.fits.headerSize_pos log.fits.headerSize_lt, ?_⟩
    exact Medium.allowsAll_recordCalls (log.fits.holds_format log.medium log.pages_pos) hanchor

theorem allowsAll_resumeCalls {medium : Medium g} {config : Config} (hsound : medium.Sound)
    (hfits : config.Fits g) (now : Instant) :
    medium.AllowsAll (resumeCalls medium config now) := by
  refine Medium.allowsAll_append.mpr ⟨?_, ?_⟩
  · unfold recoverCalls
    split
    · rename_i herased
      have hslot := medium.activeSlot_lt (pages_pos_of_accepted hfits.accepted)
      refine ⟨.header ?_ ?_, trivial⟩
      · rw [recoveredPage, if_pos herased]
        exact hfits.page_fits hslot _
      · rw [slot_recoveredPage]
        exact herased
    · trivial
  · exact Medium.allowsAll_recordCalls (holds_recoverCalls hsound hfits)
      (erased_not_mem_anchor now)

theorem allowsAll_bootCalls {medium : Medium g} {config : Config} (hsound : medium.Sound)
    (hfits : config.Fits g) (now : Instant) : medium.AllowsAll (bootCalls medium config now) := by
  unfold bootCalls
  split
  · have hformat := allowsAll_formatCalls medium hfits.headerSize_pos hfits.headerSize_lt
    exact Medium.allowsAll_append.mpr
      ⟨hformat, allowsAll_resumeCalls (hsound.applyAll hformat) hfits now⟩
  · exact allowsAll_resumeCalls hsound hfits now

end Log

/-! ## Runs -/

namespace Device

/-- The medium is sound, and a running log is in step with it. -/
structure Sound (device : Device g) : Prop where
  powered : device.chip.supply = none
  medium : device.chip.medium.Sound
  inStep : ∀ log, device = running log → log.InStep

variable {device : Device g} {event : Event}

theorem Sound.allowsAll_calls (h : device.Sound) {action : Action} (haction : action.Regular g) :
    device.chip.medium.AllowsAll (device.calls action) := by
  cases action with
  | boot config now => exact Log.allowsAll_bootCalls h.medium haction now
  | perform now operation =>
    cases device with
    | off chip => trivial
    | running log => exact (h.inStep log rfl).allowsAll_calls haction

theorem Sound.allowsAll_carried (h : device.Sound) (haction : event.action.Regular g) :
    device.chip.medium.AllowsAll (device.carried event) := by
  unfold carried
  split
  · exact h.allowsAll_calls haction
  · exact (h.allowsAll_calls haction).take _

theorem inStep_boot {chip : Chip g} {config : Config} {now : Instant} {log : Log g}
    (hpowered : chip.supply = none) (hsound : chip.medium.Sound) (hfits : config.Fits g)
    (hpushed : (Log.found chip config hfits.accepted).Pushed log [anchorWord now]) :
    log.InStep := by
  refine (Log.InStep.pushed ?_ hpushed (erased_not_mem_anchor now))
  unfold Log.found
  split
  · have hformat := allowsAll_formatCalls chip.medium hfits.headerSize_pos hfits.headerSize_lt
    rw [Chip.format_eq]
    refine Log.inStep_recover (Chip.supply_performAll_powered hpowered _) ?_ hfits
    rw [Chip.medium_performAll_powered hpowered]
    exact hsound.applyAll hformat
  · exact Log.inStep_recover hpowered hsound hfits

theorem Sound.inStep_act (h : device.Sound) {action : Action} (haction : action.Regular g)
    {log' : Log g} (hlog : device.act action = running log') : log'.InStep := by
  cases action with
  | boot config now =>
    obtain ⟨log, hboot, hpushed⟩ := boot_of_fits device.chip haction now
    rw [act_boot hboot] at hlog
    cases hlog
    exact inStep_boot h.powered h.medium haction hpushed
  | perform now operation =>
    cases device with
    | off chip => cases hlog
    | running log =>
      cases hlog
      exact ((h.inStep log rfl).prepared operation).pushed (log.pushed_perform now operation)
        (log.erased_not_mem_written haction)

theorem Sound.step (h : device.Sound) (haction : event.action.Regular g) :
    (device.step event).Sound := by
  have hchip := chip_step h.powered haction
  refine ⟨by rw [hchip], ?_, ?_⟩
  · rw [hchip]
    exact h.medium.applyAll (h.allowsAll_carried haction)
  · intro log hlog
    unfold Device.step at hlog
    split at hlog
    · exact h.inStep_act haction hlog
    · cases hlog

theorem sound_new (g : Geometry) : (new g).Sound :=
  ⟨rfl, Medium.sound_blank g, fun _ hlog => by cases hlog⟩

/-- The device is sound, and the calls in its trace account for its medium. -/
structure Accounted (device : Device g) : Prop where
  sound : device.Sound
  medium_eq : device.chip.medium = (Medium.blank g).applyAll device.chip.trace.reverse
  allows : (Medium.blank g).AllowsAll device.chip.trace.reverse

theorem Accounted.step (h : device.Accounted) (haction : event.action.Regular g) :
    (device.step event).Accounted := by
  have hchip := chip_step h.sound.powered haction
  have htrace : (device.step event).chip.trace.reverse =
      device.chip.trace.reverse ++ device.carried event := by
    rw [hchip, List.reverse_append, List.reverse_reverse]
  refine ⟨h.sound.step haction, ?_, ?_⟩
  · rw [htrace, Medium.applyAll_append, ← h.medium_eq, hchip]
  · rw [htrace, Medium.allowsAll_append, ← h.medium_eq]
    exact ⟨h.allows, h.sound.allowsAll_carried haction⟩

theorem accounted_run {events : List Event} (hevents : ∀ event ∈ events, event.action.Regular g) :
    ((new g).run events).Accounted :=
  run_induction ⟨sound_new g, rfl, trivial⟩ fun _ event hevent h => h.step (hevents event hevent)

/-- The medium of a device is what the calls in its trace make of a blank one, and each of these
writes finds a word that is erased at that moment and leaves there the value it writes. The events
are any operations and boots, with or without a power failure after any number of calls. -/
theorem writesOnce_run {events : List Event}
    (hevents : ∀ event ∈ events, event.action.Regular g) :
    ((new g).run events).chip.medium =
        (Medium.blank g).applyAll ((new g).run events).chip.trace.reverse ∧
      (Medium.blank g).WritesOnce ((new g).run events).chip.trace.reverse :=
  ⟨(accounted_run hevents).medium_eq, (accounted_run hevents).allows.writesOnce⟩

/-- A life with a power failure in a format, in a rotation and in an erasure. -/
theorem writesOnce_run_interrupted :
    let events : List Event :=
      [⟨.boot ⟨0, 1⟩ ⟨0⟩, some 2⟩, ⟨.boot ⟨0, 1⟩ ⟨0⟩, none⟩, ⟨.perform ⟨0⟩ (.append 7), none⟩,
        ⟨.perform ⟨0⟩ .rotate, some 1⟩, ⟨.boot ⟨0, 2⟩ ⟨0⟩, none⟩,
        ⟨.perform ⟨0⟩ .eraseAll, some 3⟩, ⟨.boot ⟨0, 1⟩ ⟨0⟩, none⟩]
    let chip := ((new ⟨2, 4⟩).run events).chip
    (∀ event ∈ events, event.action.Regular ⟨2, 4⟩) ∧ chip.trace.length = 10 ∧
      (Medium.blank ⟨2, 4⟩).WritesOnce chip.trace.reverse :=
  ⟨by decide, by decide +kernel, (writesOnce_run (by decide)).2⟩

end Device

end RingLog
