import RingLog.Proofs.Log.Device
import RingLog.Proofs.Log.InStep
import RingLog.Proofs.Log.Latch

/-!
# Headroom for one more append

An append takes two record slots at most, one for the time and one for its word. With a reserve of
two or more there is always room for it, as long as the log's requests for a rotation are served
before the next append: where no rotation is pending, either the log has looked at its page and
found more than the reserve left, or the page is a new one with nothing but its anchor. That holds
across boots with other reserves and header sizes too, since a boot looks at the page that it finds
under the configuration it was given.

Main statement: `Device.append_fits_serviced`.
-/

namespace RingLog

variable {g : Geometry}

namespace Log

variable {log : Log g} {now : Instant}

/-! ## Words that find room are not dropped -/

theorem used_lt_of_free_pos (h : 0 < log.free) : log.used < log.page.capacity g := by
  rw [free] at h
  omega

theorem dropped_push (log : Log g) (hroom : log.used < log.page.capacity g) (word : Word) :
    (log.push word).dropped = log.dropped := by
  rw [push, dif_pos hroom]

theorem dropped_writeElapsed (h : 0 < log.free) (now : Instant) :
    (log.writeElapsed now).dropped = log.dropped := by
  have hroom := used_lt_of_free_pos h
  unfold writeElapsed
  dsimp only
  split
  · exact dropped_push { log with reference := Instant.ofSeconds now.seconds } hroom _
  · split
    · rfl
    · exact dropped_push { log with reference := log.reference.addMillis _ } hroom _

@[simp]
theorem dropped_requestRotation (log : Log g) : log.requestRotation.dropped = log.dropped := by
  unfold requestRotation
  split <;> rfl

theorem length_elapsedWords_le (log : Log g) (now : Instant) :
    (log.elapsedWords now).length ≤ 1 := by
  unfold elapsedWords
  dsimp only
  split
  · simp
  · split <;> simp

/-- Two free slots are enough for an append. -/
theorem dropped_append (h : 2 ≤ log.free) (now : Instant) (word : Word) :
    (log.append now word).dropped = log.dropped := by
  have hfree := (log.pushed_writeElapsed now).free_eq
  have hlength := log.length_elapsedWords_le now
  have hleft : 0 < (log.writeElapsed now).free := by omega
  rw [append, dropped_requestRotation, dropped_push _ (used_lt_of_free_pos hleft),
    dropped_writeElapsed (by omega)]

/-! ## New pages -/

/-- A new page has room for the reserve behind its anchor. -/
theorem reserve_le_free_of_pushed {log log' : Log g} (hp : log.Pushed log' [anchorWord now])
    (hheader : log.page.headerSize = log.config.headerSize) (hused : log.used = 0) :
    log'.config.reserve.toNat ≤ log'.free := by
  have hneeded := log.fits.needed_le
  rw [hp.free_eq, hp.config_eq, free, Page.capacity, hheader, hused, List.length_singleton]
  omega

theorem reserve_le_free_rotate (log : Log g) (now : Instant) :
    (log.rotate now).config.reserve.toNat ≤ (log.rotate now).free :=
  reserve_le_free_of_pushed (log.pushed_rotate now) rfl rfl

theorem reserve_le_free_eraseAll (hpowered : log.chip.supply = none) (now : Instant) :
    (log.eraseAll now).config.reserve.toNat ≤ (log.eraseAll now).free := by
  refine reserve_le_free_of_pushed (log.pushed_eraseAll now) ?_ rfl
  rw [page_cleared hpowered]
  rfl

/-! ## The invariant -/

/-- Where no rotation is pending there is room for the time and a word. -/
structure Roomy (log : Log g) : Prop extends log.Latched where
  powered : log.chip.supply = none
  ample : 2 ≤ log.config.reserve.toNat
  room : log.rotationPending = false → 2 ≤ log.free

/-- A log that has just looked at its page has found room, or asks for a rotation. -/
theorem room_of_pending_iff (hample : 2 ≤ log.config.reserve.toNat)
    (hiff : log.rotationPending = true ↔ log.Low) (hpending : log.rotationPending = false) :
    2 ≤ log.free := by
  have hlow : ¬log.Low := by simp [← hiff, hpending]
  rw [Low] at hlow
  omega

theorem Roomy.perform (h : log.Roomy) (now : Instant) (operation : Operation) :
    (log.perform now operation).Roomy where
  toLatched := h.toLatched.perform now operation
  powered := by rw [chip_perform, Chip.supply_performAll_powered h.powered]
  ample := log.config_perform now operation ▸ h.ample
  room := by
    have hample : 2 ≤ (log.perform now operation).config.reserve.toNat :=
      log.config_perform now operation ▸ h.ample
    have hchecks (hclears : operation.clears = false) :=
      room_of_pending_iff hample (h.pending_iff (log.checked_perform now hclears))
    cases operation with
    | append word => exact hchecks rfl
    | anchor => exact hchecks rfl
    | rotate => exact fun _ => Nat.le_trans hample (log.reserve_le_free_rotate now)
    | eraseAll => exact fun _ => Nat.le_trans hample (reserve_le_free_eraseAll h.powered now)

theorem roomy_boot {chip : Chip g} {config : Config} {log : Log g} (hpowered : chip.supply = none)
    (hample : 2 ≤ config.reserve.toNat) (h : boot chip config now = .ok log) : log.Roomy := by
  obtain ⟨hlatched, rfl, hiff, -⟩ := latched_boot h
  refine ⟨hlatched, ?_, hample, room_of_pending_iff hample hiff⟩
  rw [chip_boot h, Chip.supply_performAll_powered hpowered]

end Log

namespace Action

/-- A boot has a configuration that fits, with a reserve for two records or more. -/
def Ample (g : Geometry) : Action → Prop
  | boot config _ => config.Fits g ∧ 2 ≤ config.reserve.toNat
  | perform _ _ => True

instance (g : Geometry) (action : Action) : Decidable (action.Ample g) :=
  match action with
  | boot _ _ => inferInstanceAs (Decidable (_ ∧ _))
  | perform _ _ => inferInstanceAs (Decidable True)

/-- The action appends a word. -/
def appends : Action → Bool
  | perform _ (.append _) => true
  | _ => false

end Action

namespace Device

/-- The log has asked for a rotation that did not happen yet. -/
def awaitsRotation : Device g → Bool
  | off _ => false
  | running log => log.rotationPending

/-- No append is made while a rotation is awaited: every request is served before. -/
def Serviced : Device g → List Action → Prop
  | _, [] => True
  | device, action :: rest =>
    (action.appends = true → device.awaitsRotation = false) ∧ (device.act action).Serviced rest

instance decidableServiced : (device : Device g) → (actions : List Action) →
    Decidable (device.Serviced actions)
  | _, [] => inferInstanceAs (Decidable True)
  | device, action :: rest =>
    have := decidableServiced (device.act action) rest
    inferInstanceAs (Decidable (_ ∧ _))

variable {device : Device g} {action : Action} {actions before after : List Action}

theorem Serviced.awaitsRotation_eq (h : device.Serviced (before ++ action :: after))
    (happends : action.appends = true) : (device.actAll before).awaitsRotation = false := by
  induction before generalizing device with
  | nil => exact h.1 happends
  | cons first rest ih => exact ih h.2

/-- A chip under power, and on it a log with headroom if it is running. -/
structure Roomy (device : Device g) : Prop where
  powered : device.chip.supply = none
  roomy : ∀ log, device = running log → log.Roomy

theorem Roomy.act (h : device.Roomy) (haction : action.Ample g) : (device.act action).Roomy := by
  cases action with
  | boot config now =>
    obtain ⟨log, hboot, -⟩ := boot_of_fits device.chip haction.1 now
    have hroomy := Log.roomy_boot h.powered haction.2 hboot
    rw [act_boot hboot]
    refine ⟨hroomy.powered, fun other hother => ?_⟩
    cases hother
    exact hroomy
  | perform now operation =>
    cases device with
    | off chip => exact h
    | running log =>
      have hroomy := (h.roomy log rfl).perform now operation
      refine ⟨hroomy.powered, fun other hother => ?_⟩
      cases hother
      exact hroomy

/-- A device starts with any medium and goes through boots, with reserves for two records or more,
and operations of any kind, with any words and clocks. If every request for a rotation is served
before the next append, then each append finds room for the time and for its word, and adds nothing
to the count of dropped records. -/
theorem append_fits_serviced {medium : Medium g} (hactions : ∀ action ∈ actions, action.Ample g)
    (hserviced : (off { medium }).Serviced actions) {now : Instant} {word : Word}
    (hsplit : actions = before ++ .perform now (.append word) :: after) {log : Log g}
    (hlog : (off { medium }).actAll before = running log) :
    2 ≤ log.free ∧ (log.append now word).dropped = log.dropped := by
  subst hsplit
  have hpending := hserviced.awaitsRotation_eq rfl
  have hroomy : ((off { medium }).actAll before).Roomy := by
    refine actAll_induction ⟨rfl, fun log hlog => by cases hlog⟩ fun _ action haction h => ?_
    exact h.act (hactions action (List.mem_append_left _ haction))
  rw [hlog] at hpending hroomy
  have hroom := (hroomy.roomy log rfl).room hpending
  exact ⟨hroom, Log.dropped_append hroom now word⟩

/-- A log with a reserve of two asks for a rotation. Before it gets it, it is booted with a larger
reserve and another header size, and asks again. -/
theorem append_fits_serviced_boot :
    let before : List Action := [.boot ⟨2, 1⟩ ⟨0⟩, .perform (.ofSeconds 1) (.append 7),
      .perform (.ofSeconds 2) (.append 7), .boot ⟨4, 2⟩ (.ofSeconds 2),
      .perform (.ofSeconds 2) .rotate]
    let last : Action := .perform (.ofSeconds 3) (.append 7)
    (∀ action ∈ before ++ [last], action.Ample ⟨2, 8⟩) ∧ (new ⟨2, 8⟩).Serviced (before ++ [last]) ∧
      ∃ log, (new ⟨2, 8⟩).actAll before = running log ∧ log.page.headerSize = 2 ∧ 2 ≤ log.free ∧
        (log.append (.ofSeconds 3) 7).dropped = log.dropped := by
  intro before last
  have hactions : ∀ action ∈ before ++ [last], action.Ample ⟨2, 8⟩ := by decide
  have hserviced : (new ⟨2, 8⟩).Serviced (before ++ [last]) := by decide +kernel
  have hheader : (match (new ⟨2, 8⟩).actAll before with
      | running log => log.page.headerSize
      | off _ => 0) = 2 := by decide +kernel
  split at hheader
  · rename_i log hlog
    obtain ⟨hroom, hdropped⟩ := append_fits_serviced hactions hserviced rfl hlog
    exact ⟨hactions, hserviced, log, hlog, hheader, hroom, hdropped⟩
  · cases hheader

end Device

end RingLog
