import RingLog.Proofs.Log.Footprint
import RingLog.Proofs.Log.Frontier

/-!
# Wear

Every erasure wears a slot out, so the slots of a ring should be erased equally often. Formatting
erases each slot once, in turn. Behind that only rotations erase, and always the slot behind the one
that was written last. So the slots that the current lap has come to were erased once more often
than those that it has yet to come to (`Log.Worn`), and the next one to be erased is among the
latter. A boot does not disturb this order, since it goes on in the slot where the log was.

Reading takes a log and gives none back, so it has no part in these runs.

Main statement: `Device.wear_run`.
-/

namespace RingLog

variable {g : Geometry}

/-- How often the slot is erased by some calls. -/
def wear (calls : List Call) (slot : Nat) : Nat :=
  calls.count (.erase slot)

/-- No slot is erased more often than another by more than one. -/
def WornEvenly (g : Geometry) (calls : List Call) : Prop :=
  ∀ slot < g.pages, ∀ other < g.pages, wear calls slot ≤ wear calls other + 1

/-! ## The wear of calls -/

theorem wear_append (first second : List Call) (slot : Nat) :
    wear (first ++ second) slot = wear first slot + wear second slot :=
  List.count_append

theorem wear_reverse (calls : List Call) (slot : Nat) : wear calls.reverse slot = wear calls slot :=
  List.count_reverse

theorem wear_recordCalls (page : Page) (index : Nat) (words : List Word) (slot : Nat) :
    wear (Page.recordCalls g page index words) slot = 0 := by
  rw [wear, List.count_eq_zero]
  intro hmem
  obtain ⟨_, _, hcall, -⟩ := Page.exists_of_mem_recordCalls hmem
  cases hcall

theorem wear_establishCalls (page : Page) (slot : Nat) :
    wear page.establishCalls slot = if page.slot = slot then 1 else 0 := by
  simp [wear, Page.establishCalls, Page.headerCall, List.count_cons]

/-- A format erases each slot once. -/
theorem wear_formatCalls (headerSize : UInt8) {slot : Nat} (hslot : slot < g.pages) :
    wear (formatCalls g headerSize) slot = 1 := by
  have hslots : ∀ slots : List Nat, wear (slots.flatMap fun slot =>
      (Page.initial g headerSize slot).establishCalls) slot = slots.count slot := by
    intro slots
    induction slots with
    | nil => rfl
    | cons first rest ih =>
      have hfirst : (Page.initial g headerSize first).slot = first := rfl
      rw [List.flatMap_cons, wear_append, ih, wear_establishCalls, hfirst, List.count_cons,
        Nat.add_comm]
      simp only [beq_iff_eq]
  rw [formatCalls, hslots, List.count_range, if_pos hslot]

theorem wear_resumeCalls (medium : Medium g) (config : Config) (now : Instant) (slot : Nat) :
    wear (Log.resumeCalls medium config now) slot = 0 := by
  have hheader : wear (Log.recoverCalls medium config) slot = 0 := by
    unfold Log.recoverCalls
    split
    · rfl
    · rfl
  rw [Log.resumeCalls, wear_append, hheader, wear_recordCalls]

/-! ## Moments -/

theorem wornEvenly_of_bounds {calls : List Call} {laps : Nat}
    (h : ∀ slot < g.pages, laps ≤ wear calls slot ∧ wear calls slot ≤ laps + 1) :
    WornEvenly g calls := by
  intro slot hslot other hother
  have hmost := (h slot hslot).2
  have hleast := (h other hother).1
  omega

/-- Between two moments the wear lies between theirs. -/
theorem wornEvenly_between {old recent past : List Call} {laps : Nat}
    (hold : ∀ past, past <:+ old → WornEvenly g past)
    (hleast : ∀ slot < g.pages, laps ≤ wear old slot)
    (hmost : ∀ slot < g.pages, wear (recent ++ old) slot ≤ laps + 1)
    (hpast : past <:+ recent ++ old) : WornEvenly g past := by
  rcases List.suffix_or_suffix_of_suffix hpast (List.suffix_append recent old) with hbefore | hafter
  · exact hold past hbefore
  · have hbounds : ∀ slot < g.pages, laps ≤ wear past slot ∧ wear past slot ≤ laps + 1 := by
      intro slot hslot
      constructor
      · exact Nat.le_trans (hleast slot hslot) (hafter.sublist.count_le _)
      · exact Nat.le_trans (hpast.sublist.count_le _) (hmost slot hslot)
    exact wornEvenly_of_bounds hbounds

/-! ## Laps -/

/-- How much more often a slot was erased than slot zero, in a lap that has come to `active`. Slot
zero is where a lap ends. -/
def lead (active slot : Nat) : Nat :=
  if 0 < slot ∧ slot ≤ active then 1 else 0

theorem lead_le_one (active slot : Nat) : lead active slot ≤ 1 := by
  unfold lead
  split <;> omega

/-- The next slot is one that the lap has yet to come to. -/
theorem lead_next {active : Nat} (hactive : active < g.pages) :
    lead active (g.next active) = 0 := by
  rw [lead, if_neg]
  intro hlead
  by_cases hlast : active + 1 = g.pages
  · rw [Geometry.next_of_last hlast] at hlead
    omega
  · rw [Geometry.next_of_lt (by omega)] at hlead
    omega

/-- Going on to the next slot either adds that slot to the lap or completes it. -/
theorem lead_add {active : Nat} (hactive : active < g.pages) (turns : Bool) :
    ∃ completed, ∀ slot < g.pages,
      lead active slot + (if turns ∧ slot = g.next active then 1 else 0) =
        completed + lead (if turns then g.next active else active) slot := by
  cases turns with
  | false =>
    refine ⟨0, fun slot _ => ?_⟩
    rw [if_neg (fun h => Bool.false_ne_true h.1), if_neg Bool.false_ne_true, Nat.zero_add,
      Nat.add_zero]
  | true =>
    simp only [true_and, if_true]
    by_cases hlast : active + 1 = g.pages
    · refine ⟨1, fun slot hslot => ?_⟩
      rw [Geometry.next_of_last hlast]
      unfold lead
      split <;> split <;> split <;> omega
    · refine ⟨0, fun slot hslot => ?_⟩
      rw [Geometry.next_of_lt (by omega)]
      unfold lead
      split <;> split <;> split <;> omega

namespace Log

variable {log log' : Log g}

/-- The slots of the current lap were erased once more often than the others, and the wear was even
at every moment so far. -/
structure Worn (log : Log g) : Prop extends log.OnRing where
  laps : ∃ laps, ∀ slot < g.pages, wear log.chip.trace slot = laps + lead log.page.slot slot
  even : ∀ past, past <:+ log.chip.trace → WornEvenly g past

/-- No slot was erased less often than the next one. -/
theorem Worn.wear_next_le (h : log.Worn) {slot : Nat} (hslot : slot < g.pages) :
    wear log.chip.trace (g.next log.page.slot) ≤ wear log.chip.trace slot := by
  obtain ⟨laps, hlaps⟩ := h.laps
  rw [hlaps slot hslot, hlaps _ log.next_slot_lt, lead_next log.slot_lt]
  omega

/-- The wear stays even if nothing is erased, or the next slot is and the log goes on there. -/
theorem Worn.extend (h : log.Worn) (hring : log'.OnRing) {turns : Bool}
    (hslot : log'.page.slot = if turns then g.next log.page.slot else log.page.slot)
    {recent : List Call} (htrace : log'.chip.trace = recent ++ log.chip.trace)
    (hwear : ∀ slot, wear recent slot = if turns ∧ slot = g.next log.page.slot then 1 else 0) :
    log'.Worn := by
  obtain ⟨laps, hlaps⟩ := h.laps
  obtain ⟨completed, hlead⟩ := lead_add log.slot_lt turns
  have hleast : ∀ slot < g.pages, laps ≤ wear log.chip.trace slot := by
    intro slot hlt
    rw [hlaps slot hlt]
    exact Nat.le_add_right _ _
  have hmost : ∀ slot < g.pages, wear (recent ++ log.chip.trace) slot ≤ laps + 1 := by
    intro slot hlt
    have hone := lead_le_one log.page.slot slot
    rw [wear_append, hwear, hlaps slot hlt]
    split
    · rename_i hnext
      rw [hnext.2, lead_next log.slot_lt]
      omega
    · omega
  refine ⟨hring, ⟨laps + completed, fun slot hlt => ?_⟩, fun past hpast => ?_⟩
  · have hstep := hlead slot hlt
    rw [htrace, wear_append, hwear, hlaps slot hlt, hslot]
    omega
  · exact wornEvenly_between h.even hleast hmost (htrace ▸ hpast)

end Log

/-! ## Runs -/

namespace Device

variable {device : Device g} {log : Log g} {action : Action}

theorem trace_act (hpowered : device.chip.supply = none) (haction : action.Regular g) :
    (device.act action).chip.trace = (device.calls action).reverse ++ device.chip.trace := by
  rw [chip_act device haction, Chip.performAll_eq, Chip.carried_powered hpowered]

/-- Among the calls of a log that is in use, only a rotation erases, and it erases the next slot. -/
theorem wear_calls (h : log.OnRing) (hkeeps : action.erases = false) (slot : Nat) :
    wear ((running log).calls action) slot =
      if action.rotates ∧ slot = g.next log.page.slot then 1 else 0 := by
  cases action with
  | boot config now =>
    have hcalls : (running log).calls (.boot config now) =
        Page.recordCalls g log.page log.used [anchorWord now] :=
      h.bootCalls_eq h.formatted h.activeSlot_eq config now
    rw [hcalls, wear_recordCalls]
    rfl
  | perform now operation =>
    cases operation with
    | append word => exact wear_recordCalls ..
    | anchor => exact wear_recordCalls ..
    | rotate =>
      have hcalls : (running log).calls (.perform now .rotate) = log.rotatedPage.establishCalls ++
          Page.recordCalls g log.rotatedPage 0 [anchorWord now] := rfl
      have hslot : log.rotatedPage.slot = g.next log.page.slot := rfl
      rw [hcalls, wear_append, wear_recordCalls, wear_establishCalls, hslot, Nat.add_zero]
      simp only [Action.rotates, true_and, eq_comm]
    | eraseAll => cases hkeeps

/-- Only a rotation goes on to the next slot. -/
theorem slot_act (h : log.OnRing) (hpages : g.pages < 65536) (haction : action.Regular g)
    (hkeeps : action.erases = false) : ∃ log', (running log).act action = running log' ∧
      log'.OnRing ∧ log'.page.slot = if action.rotates then g.next log.page.slot
        else log.page.slot := by
  cases action with
  | boot config now =>
    obtain ⟨log', hlog', hring⟩ := (Ringed.of_onRing h).boot hpages haction now
    obtain ⟨other, hboot, hpage, -⟩ := h.resumes haction now
    have hother : (running log).act (.boot config now) = running other := act_boot hboot
    cases hlog'.symm.trans hother
    exact ⟨log', hlog', hring, congrArg Page.slot hpage⟩
  | perform now operation =>
    refine ⟨_, rfl, h.perform hpages haction, ?_⟩
    rw [(log.pushed_perform now operation).page_eq]
    cases operation with
    | append word | anchor | rotate => rfl
    | eraseAll => cases hkeeps

/-- What an action does to the wear of a device. -/
structure Wears (device : Device g) (action : Action) : Prop where
  /-- Before the first boot nothing was erased, and that boot erases each slot once. -/
  first : ∀ chip, device = off chip → ∀ slot < g.pages, wear chip.trace slot = 0 ∧
    wear (device.act action).chip.trace slot =
      match action with
      | .boot _ _ => 1
      | .perform _ _ => 0
  /-- From there on only a rotation erases, the next slot and once. -/
  later : ∀ log, device = running log → ∀ slot,
    wear (device.act action).chip.trace slot = wear log.chip.trace slot +
      if action.rotates ∧ slot = g.next log.page.slot then 1 else 0
  /-- No slot was erased less often than the one that a rotation erases. -/
  least : ∀ log, device = running log → action.rotates → ∀ slot < g.pages,
    wear log.chip.trace (g.next log.page.slot) ≤ wear log.chip.trace slot

/-- The device has yet to boot, or a log is in use on it. -/
def Worn : Device g → Prop
  | off chip => chip = { medium := .blank g }
  | running log => log.Worn

/-- The first boot formats the medium. -/
theorem worn_boot (hpages : g.pages < 65536) {config : Config} (hfits : config.Fits g)
    (now : Instant) : ∃ log, (new g).act (.boot config now) = running log ∧ log.Worn ∧
      ∀ slot < g.pages, wear log.chip.trace slot = 1 := by
  obtain ⟨log, hlog, hring⟩ := (ringed_new g).boot hpages hfits now
  obtain ⟨other, hboot, hpushed⟩ := boot_of_fits (new g).chip hfits now
  cases hlog.symm.trans (act_boot hboot)
  have hblank : (new g).chip.medium.isUnformatted := Medium.isUnformatted_blank g
  have hfound := Log.found_of_unformatted hblank hfits.accepted
  obtain ⟨-, -, hpage, -⟩ := Log.fullRing_recover_format rfl hfits hpages hfound
  have hslot : log.page.slot = 0 := by
    rw [hpushed.page_eq, hpage]
    rfl
  have hcalls : (new g).calls (.boot config now) = formatCalls g config.headerSize ++
      Log.resumeCalls ((Medium.blank g).applyAll (formatCalls g config.headerSize)) config now :=
    if_pos hblank
  have htrace : log.chip.trace = ((new g).calls (.boot config now)).reverse ++ [] := by
    have hregular : (Action.boot config now).Regular g := hfits
    have hact := trace_act (ringed_new g).powered hregular
    rwa [hlog] at hact
  have hwear : ∀ slot < g.pages, wear log.chip.trace slot = 1 := by
    intro slot hlt
    rw [htrace, List.append_nil, wear_reverse, hcalls, wear_append, wear_resumeCalls,
      wear_formatCalls _ hlt]
  refine ⟨log, hlog, ⟨hring, ⟨1, fun slot hlt => ?_⟩, fun past hpast => ?_⟩, hwear⟩
  · rw [hwear slot hlt, hslot, lead, if_neg (by omega)]
  · refine wornEvenly_of_bounds fun slot hlt => ⟨Nat.zero_le _, ?_⟩
    exact Nat.le_trans (hpast.sublist.count_le _) (Nat.le_of_eq (hwear slot hlt))

theorem Worn.act (h : device.Worn) (hpages : g.pages < 65536) (haction : action.Regular g)
    (hkeeps : action.erases = false) : (device.act action).Worn ∧ device.Wears action := by
  cases device with
  | off chip =>
    obtain rfl : chip = { medium := .blank g } := h
    cases action with
    | boot config now =>
      obtain ⟨log, hlog, hworn, hwear⟩ := worn_boot hpages haction now
      rw [new] at hlog
      refine ⟨hlog ▸ hworn, ?_, fun _ hlog => (by cases hlog), fun _ hlog => by cases hlog⟩
      rintro chip ⟨⟩ slot hslot
      rw [hlog]
      exact ⟨rfl, hwear slot hslot⟩
    | perform now operation =>
      refine ⟨rfl, ?_, fun _ hlog => (by cases hlog), fun _ hlog => by cases hlog⟩
      rintro chip ⟨⟩ slot hslot
      exact ⟨rfl, rfl⟩
  | running log =>
    have hring := Log.Worn.toOnRing h
    obtain ⟨log', hlog', hring', hslot⟩ := slot_act hring hpages haction hkeeps
    have htrace : log'.chip.trace = ((running log).calls action).reverse ++ log.chip.trace := by
      have hpowered : (running log).chip.supply = none := hring.powered
      have hact := trace_act hpowered haction
      rwa [hlog'] at hact
    have hrecent : ∀ slot, wear ((running log).calls action).reverse slot =
        if action.rotates ∧ slot = g.next log.page.slot then 1 else 0 := fun slot =>
      (wear_reverse _ slot).trans (wear_calls hring hkeeps slot)
    refine ⟨?_, fun _ hoff => (by cases hoff), ?_, ?_⟩
    · rw [hlog']
      exact Log.Worn.extend h hring' hslot htrace hrecent
    · rintro log ⟨⟩ slot
      rw [hlog', chip, htrace, wear_append, hrecent, Nat.add_comm]
    · rintro log ⟨⟩ - slot hlt
      exact Log.Worn.wear_next_le h hlt

theorem worn_actAll (hpages : g.pages < 65536) {actions : List Action}
    (hactions : ∀ action ∈ actions, action.Regular g ∧ action.erases = false) :
    ((new g).actAll actions).Worn :=
  actAll_induction (P := Worn) rfl fun _ action haction h =>
    (Worn.act h hpages (hactions action haction).1 (hactions action haction).2).1

theorem Worn.even (h : device.Worn) {past : List Call} (hpast : past <:+ device.chip.trace) :
    WornEvenly g past := by
  cases device with
  | off chip =>
    obtain rfl : chip = { medium := .blank g } := h
    rw [List.suffix_nil.mp hpast]
    exact fun _ _ _ _ => Nat.zero_le _
  | running log => exact Log.Worn.even h past hpast

/-- A device is used from its first boot on, with any appends, anchors, rotations and boots. At
every moment, between any two calls, no slot was erased more often than another by more than one.
The first boot erases each slot once. From there on a rotation erases one slot, of those that were
erased least, and nothing else erases anything. -/
theorem wear_run (hpages : g.pages < 65536) {actions : List Action}
    (hactions : ∀ action ∈ actions, action.Regular g ∧ action.erases = false) :
    (∀ past, past <:+ ((new g).actAll actions).chip.trace → WornEvenly g past) ∧
      ∀ before action after, actions = before ++ action :: after →
        ((new g).actAll before).Wears action := by
  refine ⟨fun past hpast => (worn_actAll hpages hactions).even hpast, ?_⟩
  rintro before action after rfl
  have hbefore := worn_actAll hpages fun other hother =>
    hactions other (List.mem_append_left _ hother)
  obtain ⟨haction, hkeeps⟩ := hactions action (List.mem_append_right _ List.mem_cons_self)
  exact (hbefore.act hpages haction hkeeps).2

/-- Three slots, with a boot between the first rotation and the second. The third rotation completes
a lap, and the fourth one erases slot one again. -/
theorem wear_run_second_lap :
    let rotation : Action := .perform ⟨0⟩ .rotate
    let actions : List Action := [.boot ⟨0, 1⟩ ⟨0⟩, rotation, .perform ⟨0⟩ (.append 7),
      .boot ⟨0, 2⟩ ⟨0⟩, rotation, rotation]
    let wears := fun actions => (List.range 3).map (wear ((new ⟨3, 4⟩).actAll actions).chip.trace)
    (∀ action ∈ actions ++ [rotation], action.Regular ⟨3, 4⟩ ∧ action.erases = false) ∧
      (∀ past, past <:+ ((new ⟨3, 4⟩).actAll (actions ++ [rotation])).chip.trace →
        WornEvenly ⟨3, 4⟩ past) ∧
      ((new ⟨3, 4⟩).actAll actions).Wears rotation ∧
      wears actions = [2, 2, 2] ∧ wears (actions ++ [rotation]) = [2, 3, 2] := by
  intro rotation actions wears
  have hactions : ∀ action ∈ actions ++ [rotation],
      action.Regular ⟨3, 4⟩ ∧ action.erases = false := by decide
  obtain ⟨heven, hwears⟩ := wear_run (by decide) hactions
  have hrotation := hwears actions rotation [] rfl
  exact ⟨hactions, heven, hrotation, by decide +kernel, by decide +kernel⟩

end Device

end RingLog
