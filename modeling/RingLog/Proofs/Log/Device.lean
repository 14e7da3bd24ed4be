import RingLog.Proofs.Log.Calls

/-!
# Devices and their runs

A device keeps a log on its chip. It is switched off, or it runs with the log open; it boots,
carries out operations, and may lose its power in the middle of either. A run is a list of events.
What an action does to a running log is said by `Log.boot` and `Log.perform`; an event in which the
power fails leaves the chip with the calls that were carried and the device switched off.

Main statement: `Device.chip_step`, an event adds the calls that it carries to the chip's trace and
makes them on its medium.
-/

namespace RingLog

variable {g : Geometry}

/-- Something that a device does. -/
inductive Action where
  /-- Opens the log on the chip, which closes it first if it is open. -/
  | boot (config : Config) (now : Instant)
  | perform (now : Instant) (operation : Operation)
  deriving DecidableEq, Repr

/-- The action writes no erased word and opens the log with a configuration that fits. -/
def Action.Regular (g : Geometry) : Action → Prop
  | boot config _ => config.Fits g
  | perform _ (.append word) => word ≠ Word.erased
  | perform _ _ => True

instance (g : Geometry) (action : Action) : Decidable (action.Regular g) :=
  match action with
  | .boot config _ => inferInstanceAs (Decidable (config.Fits g))
  | .perform _ (.append word) => inferInstanceAs (Decidable (word ≠ Word.erased))
  | .perform _ .anchor | .perform _ .rotate | .perform _ .eraseAll =>
    inferInstanceAs (Decidable True)

/-- An action, and after how many calls the power fails in it, if it does. -/
structure Event where
  action : Action
  lasting : Option Nat := none
  deriving DecidableEq, Repr

/-- A device that keeps a log. -/
inductive Device (g : Geometry) where
  | off (chip : Chip g)
  | running (log : Log g)

namespace Device

/-- A device whose medium was never written. -/
def new (g : Geometry) : Device g :=
  off { medium := Medium.blank g }

/-- The chip of a device. -/
def chip : Device g → Chip g
  | off chip => chip
  | running log => log.chip

/-- The device with another power supply. -/
def suppliedBy (supply : Option Nat) : Device g → Device g
  | off chip => off { chip with supply }
  | running log => running { log with chip.supply := supply }

/-- Carries out an action. A device that is switched off can only boot. -/
def act (device : Device g) : Action → Device g
  | .boot config now =>
    match Log.boot device.chip config now with
    | .ok log => running log
    | .error _ => off device.chip
  | .perform now operation =>
    match device with
    | running log => running (log.perform now operation)
    | off chip => off chip

/-- Carries out actions one after another. -/
def actAll (device : Device g) (actions : List Action) : Device g :=
  actions.foldl act device

/-- Carries out the action of an event. If the power fails in it, the device is off, and power is
back when it boots again. -/
def step (device : Device g) (event : Event) : Device g :=
  match event.lasting with
  | none => device.act event.action
  | some calls =>
    off { ((device.suppliedBy (some calls)).act event.action).chip with supply := none }

/-- The device after a list of events. -/
def run (device : Device g) (events : List Event) : Device g :=
  events.foldl step device

theorem act_boot {device : Device g} {config : Config} {now : Instant} {log : Log g}
    (h : Log.boot device.chip config now = .ok log) :
    device.act (.boot config now) = running log := by
  rw [act, h]

theorem actAll_append (device : Device g) (first second : List Action) :
    device.actAll (first ++ second) = (device.actAll first).actAll second :=
  List.foldl_append

theorem run_append (device : Device g) (first second : List Event) :
    device.run (first ++ second) = (device.run first).run second :=
  List.foldl_append

theorem actAll_induction {P : Device g → Prop} {device : Device g} {actions : List Action}
    (hstart : P device) (hact : ∀ device, ∀ action ∈ actions, P device → P (device.act action)) :
    P (device.actAll actions) := by
  induction actions generalizing device with
  | nil => exact hstart
  | cons action rest ih =>
    exact ih (hact device action List.mem_cons_self hstart) fun device other hother =>
      hact device other (List.mem_cons_of_mem _ hother)

theorem run_induction {P : Device g → Prop} {device : Device g} {events : List Event}
    (hstart : P device) (hstep : ∀ device, ∀ event ∈ events, P device → P (device.step event)) :
    P (device.run events) := by
  induction events generalizing device with
  | nil => exact hstart
  | cons event rest ih =>
    exact ih (hstep device event List.mem_cons_self hstart) fun device other hother =>
      hstep device other (List.mem_cons_of_mem _ hother)

/-! ## The calls of an event -/

/-- The calls of an action. -/
def calls (device : Device g) : Action → List Call
  | .boot config now => Log.bootCalls device.chip.medium config now
  | .perform now operation =>
    match device with
    | running log => log.calls now operation
    | off _ => []

/-- The calls of an event that the power lasts for. -/
def carried (device : Device g) (event : Event) : List Call :=
  match event.lasting with
  | none => device.calls event.action
  | some calls => (device.calls event.action).take calls

variable {device : Device g} {action : Action} {event : Event}

theorem boot_of_fits (chip : Chip g) {config : Config} (h : config.Fits g) (now : Instant) :
    ∃ log, Log.boot chip config now = .ok log ∧
      (Log.found chip config h.accepted).Pushed log [anchorWord now] :=
  Log.boot_ok chip h.accepted now

theorem chip_act (device : Device g) (haction : action.Regular g) :
    (device.act action).chip = device.chip.performAll (device.calls action) := by
  cases action with
  | boot config now =>
    obtain ⟨log, hboot, -⟩ := boot_of_fits device.chip haction now
    rw [act_boot hboot]
    exact Log.chip_boot hboot
  | perform now operation =>
    cases device with
    | off chip => rfl
    | running log => exact log.chip_perform now operation

/-- All that an event does to the chip of a device. -/
theorem chip_step (hpowered : device.chip.supply = none) (haction : event.action.Regular g) :
    (device.step event).chip =
      ⟨device.chip.medium.applyAll (device.carried event), none,
        (device.carried event).reverse ++ device.chip.trace⟩ := by
  unfold step carried
  split
  · rw [chip_act device haction, Chip.performAll_eq, Chip.carried_powered hpowered, hpowered]
    rfl
  · rename_i calls _
    have hcalls : (device.suppliedBy (some calls)).calls event.action =
        device.calls event.action := by
      cases device with
      | off chip => cases event.action <;> rfl
      | running log =>
        cases event.action with
        | boot config now => rfl
        | perform now operation => cases operation <;> rfl
    have hchip : (device.suppliedBy (some calls)).chip =
        { device.chip with supply := some calls } := by
      cases device <;> rfl
    rw [chip, chip_act _ haction, hcalls, hchip, Chip.performAll_eq]
    rfl

/-- A power failure leaves the first calls of the action, and the device is off. -/
theorem step_interrupted (hpowered : device.chip.supply = none) (haction : action.Regular g)
    (count : Nat) : device.step ⟨action, some count⟩ =
      off ⟨device.chip.medium.applyAll ((device.calls action).take count), none,
        ((device.calls action).take count).reverse ++ device.chip.trace⟩ := by
  have hchip : (device.step ⟨action, some count⟩).chip = _ := chip_step hpowered haction
  exact congrArg off hchip

end Device

end RingLog
