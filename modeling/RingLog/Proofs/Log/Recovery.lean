import RingLog.Proofs.Log.Device
import RingLog.Proofs.Log.OnRing

/-!
# Recovery

The power may fail while records are written and in a rotation. What that leaves on the medium is
a ring around the page written before or around the page that the rotation went on to, and the
next boot takes it up. So whenever the device is running, the numbers of its pages fall by one from
slot to slot (`Medium.Numbered`), and a boot then finds the very place where it writes
(`Log.Resumes`).

Main statement: `Device.recovery_run`.
-/

namespace RingLog

variable {g : Geometry}

/-- The slot has a header with the number. -/
def Medium.HasHeader (medium : Medium g) (slot : Nat) (number : UInt16) : Prop :=
  ∃ size, medium.read slot Header.offset = (Header.current size number).encode

/-- From the active slot backwards the numbers in the headers fall by one from slot to slot. Only
the slot that this reaches last, the next to be written, may be erased instead. -/
structure Medium.Numbered (medium : Medium g) (active : Page) : Prop where
  recent : ∀ count ≤ g.pages - 2, medium.HasHeader
    ((active.slot + g.pages - count) % g.pages) (active.number - UInt16.ofNat count)
  oldest : medium.HasHeader ((active.slot + 1) % g.pages)
      (active.number - UInt16.ofNat (g.pages - 1)) ∨
    medium.isErased ((active.slot + 1) % g.pages)

theorem Medium.InTurn.hasHeader {medium : Medium g} {active : Page} {slot : Nat}
    (h : medium.InTurn active slot) :
    medium.HasHeader slot (active.number - UInt16.ofNat (g.distance slot active.slot)) := by
  have hheader := h.1.read_header
  rw [h.2] at hheader
  exact ⟨_, hheader⟩

theorem Medium.Ring.numbered {medium : Medium g} {active : Page} (h : medium.Ring active)
    (hpages : 2 ≤ g.pages) : medium.Numbered active := by
  have hnext := Geometry.distance_next_self h.slot_lt hpages
  refine ⟨fun count hcount => ?_, ?_⟩
  · have hdistance := Geometry.distance_sub_mod h.slot_lt (show count < g.pages by omega)
    have hheader := (h.inTurn ((active.slot + g.pages - count) % g.pages)
      (Nat.mod_lt _ (by omega)) ?_).hasHeader
    · rwa [hdistance] at hheader
    · intro heq
      rw [heq] at hdistance
      omega
  · rw [← Geometry.next_eq_mod h.slot_lt]
    refine h.oldest.symm.imp (fun hinTurn => ?_) id
    have hheader := hinTurn.hasHeader
    rwa [hnext] at hheader

namespace Log

variable {log : Log g}

/-! ## Interrupted operations -/

/-- The power lasted for the header, so what follows are records on the new page. -/
theorem InStep.medium_rotate_take (h : log.InStep) (now : Instant) (count : Nat) :
    log.medium.applyAll ((log.calls now .rotate).take (count + 2)) =
      log.turned.medium.applyAll
        (Page.recordCalls g log.rotatedPage 0 ([anchorWord now].take count)) := by
  rw [medium_turned h.powered, ← Page.take_recordCalls, ← Medium.applyAll_append]
  rfl

theorem OnRing.fullRing_rotate_take (h : log.OnRing) (now : Instant) (count : Nat) :
    (log.medium.applyAll ((log.calls now .rotate).take (count + 2))).FullRing
      log.rotatedPage := by
  rw [h.medium_rotate_take]
  exact h.fullRing_turned.recordCalls h.holds_turned
    fun hmem => erased_not_mem_anchor now (List.mem_of_mem_take hmem)

/-- A rotation leaves a ring behind, however many of its calls the power lasted for. -/
theorem OnRing.ring_rotate_take (h : log.OnRing) (now : Instant) (count : Nat) :
    ∃ active, (log.medium.applyAll ((log.calls now .rotate).take count)).Ring active := by
  match count with
  | 0 => exact ⟨log.page, h.ring⟩
  | 1 =>
    -- the slot is erased and has no header, so the old page is still the active one
    exact ⟨log.page, h.ring.erase_oldest log.two_le_pages⟩
  | count + 2 => exact ⟨log.rotatedPage, (h.fullRing_rotate_take now count).ring⟩

/-- Writing records leaves a ring behind, however many calls the power lasted for. -/
theorem OnRing.ring_recordCalls_take (h : log.OnRing) {words : List Word}
    (hwords : Word.erased ∉ words) (count : Nat) :
    (log.medium.applyAll ((Page.recordCalls g log.page log.used words).take count)).Ring
      log.page := by
  rw [Page.take_recordCalls, h.used_eq]
  exact h.ring.recordCalls log.two_le_pages h.holds
    fun hmem => hwords (List.mem_of_mem_take hmem)

/-! ## Resuming -/

theorem notices_push (log : Log g) (word : Word) :
    (log.push word).outbox.notices = log.outbox.notices := by
  unfold push
  split <;> rfl

theorem notices_anchorTime (log : Log g) (now : Instant) :
    (log.anchorTime now).outbox.notices = log.outbox.notices := by
  have hanchor : (log.writeAnchor now).outbox.notices = log.outbox.notices :=
    notices_push { log with reference := Instant.ofSeconds now.seconds } _
  unfold anchorTime requestRotation
  split <;> exact hanchor

theorem boot_of_formatted {chip : Chip g} {config : Config} (accepted : config.fault? g = none)
    (hformatted : chip.medium.isUnformatted = false) (now : Instant) :
    boot chip config now = .ok (resume chip config accepted now) := by
  unfold boot
  split
  · rename_i fault hfault
    rw [accepted] at hfault
    cases hfault
  · rw [hformatted]
    rfl

/-- A boot goes on where the log is: on its page, behind its last word. It says so, and then the
anchor is all that it writes. -/
def Resumes (log : Log g) (config : Config) (now : Instant) : Prop :=
  ∃ log', boot log.chip config now = .ok log' ∧ log'.page = log.page ∧
    log'.outbox.notices = [.resumed log.page.number log.page.slot log.used] ∧
    (∀ index, log.page.read log.medium index = Word.erased ↔ log.used ≤ index) ∧
    log'.medium = log.medium.applyAll (Page.recordCalls g log.page log.used [anchorWord now])

theorem InStep.read_eq_erased_iff (h : log.InStep) (index : Nat) :
    log.page.read log.medium index = Word.erased ↔ log.used ≤ index := by
  rw [h.holds.read_record, h.used_eq]
  by_cases hindex : index < (log.medium.wordsAt log.page.slot).length
  · rw [List.getElem?_eq_getElem hindex, Option.getD_some]
    refine iff_of_false (fun herased => h.holds.not_mem ?_) (Nat.not_le.mpr hindex)
    exact herased ▸ List.getElem_mem hindex
  · rw [List.getElem?_eq_none (Nat.le_of_not_lt hindex), Option.getD_none]
    exact iff_of_true rfl (Nat.le_of_not_lt hindex)

/-- Where the scan finds the page being written, a boot goes on with that page. -/
theorem InStep.recoveredPage_eq (h : log.InStep)
    (hactive : log.medium.activeSlot = log.page.slot) (config : Config) :
    recoveredPage log.medium config = log.page := by
  rw [recoveredPage, hactive, h.holds.not_isErased, if_neg Bool.false_ne_true, h.holds.load_eq]

/-- It then writes nothing but the anchor. -/
theorem InStep.bootCalls_eq (h : log.InStep) (hformatted : log.medium.isUnformatted = false)
    (hactive : log.medium.activeSlot = log.page.slot) (config : Config) (now : Instant) :
    bootCalls log.medium config now =
      Page.recordCalls g log.page log.used [anchorWord now] := by
  rw [bootCalls, hformatted, if_neg Bool.false_ne_true, resumeCalls, h.recoveredPage_eq hactive,
    recoverCalls, hactive, h.holds.not_isErased, if_neg Bool.false_ne_true, ← h.used_eq]
  rfl

theorem InStep.resumes (h : log.InStep) (hformatted : log.medium.isUnformatted = false)
    (hactive : log.medium.activeSlot = log.page.slot) {config : Config} (hfits : config.Fits g)
    (now : Instant) : log.Resumes config now := by
  obtain ⟨hpage, -, hused, -⟩ := recover_spec log.chip config hfits.accepted
  rw [h.recoveredPage_eq hactive] at hpage
  rw [hactive, ← h.used_eq] at hused
  have hnotices : (recover log.chip config hfits.accepted).outbox.notices = [] := by
    have hfilled := h.holds.not_isErased
    rw [← hactive] at hfilled
    unfold recover
    dsimp only
    rw [hfilled]
    rfl
  have hboot := boot_of_formatted hfits.accepted hformatted now
  refine ⟨_, hboot, ?_, ?_, h.read_eq_erased_iff, ?_⟩
  · rw [resume, (pushed_anchorTime _ now).page_eq]
    exact hpage
  · rw [resume, notices_anchorTime, note]
    dsimp only
    rw [hnotices, hpage, hused]
    rfl
  · rw [medium, chip_boot hboot, Chip.medium_performAll_powered h.powered,
      h.bootCalls_eq hformatted hactive]

theorem OnRing.resumes (h : log.OnRing) {config : Config} (hfits : config.Fits g)
    (now : Instant) : log.Resumes config now :=
  h.toInStep.resumes h.formatted h.activeSlot_eq hfits now

end Log

/-! ## Runs -/

/-- The action only adds to the log that is open. -/
def Action.isRecording : Action → Bool
  | perform _ (.append _) | perform _ .anchor | perform _ .rotate => true
  | perform _ .eraseAll | boot _ _ => false

/-- The event carries out a regular action, and the power fails only while one records. -/
def Event.Recoverable (g : Geometry) (event : Event) : Prop :=
  event.action.Regular g ∧ (event.lasting = none ∨ event.action.isRecording)

instance (g : Geometry) (event : Event) : Decidable (event.Recoverable g) :=
  inferInstanceAs (Decidable (_ ∧ _))

namespace Device

/-- There is a ring on the medium unless it is unformatted, and a running log is on it. -/
structure Ringed (device : Device g) : Prop where
  powered : device.chip.supply = none
  ring : device.chip.medium.isUnformatted = false → ∃ active, device.chip.medium.Ring active
  onRing : ∀ log, device = running log → log.OnRing

variable {device : Device g} {event : Event}

theorem ringed_new (g : Geometry) : (new g).Ringed where
  powered := rfl
  ring := by
    intro hformatted
    rw [new, chip, Medium.isUnformatted_blank] at hformatted
    cases hformatted
  onRing := fun log hlog => by cases hlog

theorem Ringed.of_onRing {log : Log g} (h : log.OnRing) : (running log).Ringed where
  powered := h.powered
  ring := fun _ => ⟨log.page, h.ring⟩
  onRing := fun _ hlog => by
    cases hlog
    exact h

/-- A boot always opens a log on a ring. -/
theorem Ringed.boot (h : device.Ringed) (hpages : g.pages < 65536) {config : Config}
    (hfits : config.Fits g) (now : Instant) :
    ∃ log, device.act (.boot config now) = running log ∧ log.OnRing := by
  obtain ⟨log, hboot, hpushed⟩ := boot_of_fits device.chip hfits now
  refine ⟨log, act_boot hboot, ?_⟩
  exact (Log.onRing_found h.powered h.ring hfits hpages).pushed hpushed
    (erased_not_mem_anchor now)

theorem Ringed.act (h : device.Ringed) (hpages : g.pages < 65536) {action : Action}
    (haction : action.Regular g) : (device.act action).Ringed := by
  cases action with
  | boot config now =>
    obtain ⟨log, hlog, hring⟩ := h.boot hpages haction now
    rw [hlog]
    exact .of_onRing hring
  | perform now operation =>
    cases device with
    | off chip => exact h
    | running log => exact .of_onRing ((h.onRing log rfl).perform hpages haction)

/-- A ring is left if the power fails while the log records. -/
theorem Ringed.ring_take (h : device.Ringed) {action : Action} (haction : action.Regular g)
    (hrecording : action.isRecording) (count : Nat)
    (hformatted :
      (device.chip.medium.applyAll ((device.calls action).take count)).isUnformatted = false) :
    ∃ active, (device.chip.medium.applyAll ((device.calls action).take count)).Ring active := by
  cases action with
  | boot config now => cases hrecording
  | perform now operation =>
    cases device with
    | off chip =>
      rw [calls, List.take_nil] at hformatted ⊢
      exact h.ring hformatted
    | running log =>
      have hring := h.onRing log rfl
      cases operation with
      | append word =>
        have hwords := log.erased_not_mem_append now haction
        exact ⟨log.page, hring.ring_recordCalls_take hwords count⟩
      | anchor => exact ⟨log.page, hring.ring_recordCalls_take (erased_not_mem_anchor now) count⟩
      | rotate => exact hring.ring_rotate_take now count
      | eraseAll => cases hrecording

theorem Ringed.step (h : device.Ringed) (hpages : g.pages < 65536)
    (hevent : event.Recoverable g) : (device.step event).Ringed := by
  obtain ⟨haction, hlasting⟩ := hevent
  cases hcalls : event.lasting with
  | none =>
    rw [Device.step, hcalls]
    exact h.act hpages haction
  | some count =>
    have hrecording := hlasting.resolve_left (by rw [hcalls]; exact Option.some_ne_none _)
    have hchip := chip_step h.powered haction
    rw [carried, hcalls] at hchip
    refine ⟨by rw [hchip], ?_, ?_⟩
    · rw [hchip]
      exact h.ring_take haction hrecording count
    · intro log hlog
      rw [Device.step, hcalls] at hlog
      cases hlog

theorem ringed_run (hpages : g.pages < 65536) {events : List Event}
    (hevents : ∀ event ∈ events, event.Recoverable g) : ((new g).run events).Ringed :=
  run_induction (ringed_new g) fun _ event hevent h => h.step hpages (hevents event hevent)

/-- The power may fail any number of times, after any number of calls of appends, anchors and
rotations. Then a boot opens a log again, the numbers of an open log fall by one around its ring,
and a boot goes on where an open log is. -/
theorem recovery_run (hpages : g.pages < 65536) {events : List Event}
    (hevents : ∀ event ∈ events, event.Recoverable g) :
    (∀ config now, config.Fits g →
      ∃ log, (new g).run (events ++ [⟨.boot config now, none⟩]) = running log) ∧
    ∀ log, (new g).run events = running log →
      log.medium.Numbered log.page ∧ ∀ config now, config.Fits g → log.Resumes config now := by
  have hringed := ringed_run hpages hevents
  refine ⟨fun config now hfits => ?_, fun log hlog => ?_⟩
  · obtain ⟨log, hlog, -⟩ := hringed.boot hpages hfits now
    exact ⟨log, (run_append ..).trans hlog⟩
  · have hring := hringed.onRing log hlog
    exact ⟨hring.ring.numbered log.two_le_pages, fun _ now hfits => hring.resumes hfits now⟩

/-- A life in which the power fails in two rotations and in an append. -/
theorem recovery_run_interrupted :
    let events : List Event :=
      [⟨.boot ⟨0, 1⟩ ⟨0⟩, none⟩, ⟨.perform ⟨0⟩ (.append 7), none⟩, ⟨.perform ⟨0⟩ .rotate, some 1⟩,
        ⟨.boot ⟨0, 2⟩ ⟨0⟩, none⟩, ⟨.perform ⟨0⟩ .rotate, some 2⟩, ⟨.boot ⟨0, 1⟩ ⟨0⟩, none⟩,
        ⟨.perform ⟨5000000⟩ (.append 8), some 1⟩, ⟨.boot ⟨0, 1⟩ ⟨0⟩, none⟩]
    (∀ event ∈ events, event.Recoverable ⟨3, 4⟩) ∧ ∃ log, (new ⟨3, 4⟩).run events = running log ∧
      log.medium.Numbered log.page ∧
        ∀ config now, config.Fits ⟨3, 4⟩ → log.Resumes config now := by
  intro events
  have hevents : ∀ event ∈ events, event.Recoverable ⟨3, 4⟩ := by decide
  have hbefore : ∀ event ∈ events.take 7, event.Recoverable ⟨3, 4⟩ := by decide
  obtain ⟨log, hlog⟩ := (recovery_run (by decide) hbefore).1 ⟨0, 1⟩ ⟨0⟩ (by decide)
  exact ⟨hevents, log, hlog, (recovery_run (by decide) hevents).2 log hlog⟩

end Device

end RingLog
