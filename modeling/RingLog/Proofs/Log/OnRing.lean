import RingLog.Proofs.Log.WriteOnce
import RingLog.Proofs.Ring.Order

/-!
# Logs on a ring

A log is on its ring (`Log.OnRing`) when the pages of the medium are in order around the page it
writes and a boot would find that page. Writing records, rotating and erasing keep a log on its
ring, and a boot puts one there, also behind a rotation that the power did not last for.

Main statements: `Log.OnRing.pushed`, `Log.OnRing.fullRing_turned`, `Log.fullRing_cleared` and
`Log.onRing_found`.
-/

namespace RingLog

variable {g : Geometry}

namespace Log

variable {log log' : Log g} {words : List Word}

/-- The pages are in order around the page being written, and a boot finds it. -/
structure OnRing (log : Log g) : Prop extends log.InStep where
  ring : log.medium.Ring log.page
  formatted : log.medium.isUnformatted = false
  activeSlot_eq : log.medium.activeSlot = log.page.slot

theorem two_le_pages (log : Log g) : 2 ≤ g.pages :=
  Config.two_le_pages log.accepted

theorem OnRing.of_fullRing (hstep : log.InStep) (hfull : log.medium.FullRing log.page)
    (hpages : g.pages < 65536) : log.OnRing where
  toInStep := hstep
  ring := hfull.ring
  formatted := (hfull.inTurn 0 log.pages_pos).1.isUnformatted_eq
  activeSlot_eq := hfull.activeSlot_eq hpages

theorem InStep.read_header_pushed (h : log.InStep) (hp : log.Pushed log' words)
    (hwords : Word.erased ∉ words) (slot : Nat) :
    log'.medium.read slot Header.offset = log.medium.read slot Header.offset := by
  by_cases hslot : slot = log.page.slot
  · rw [hslot, (h.holds_pushed hp hwords).read_header, h.holds.read_header]
  · exact hp.read_of_ne h.powered hslot _

theorem InStep.fullRing_pushed (h : log.InStep) (hfull : log.medium.FullRing log.page)
    (hp : log.Pushed log' words) (hwords : Word.erased ∉ words) :
    log'.medium.FullRing log'.page := by
  rw [hp.page_eq, hp.medium_eq h.powered, h.used_eq]
  exact hfull.recordCalls h.holds hwords

theorem OnRing.pushed (h : log.OnRing) (hp : log.Pushed log' words)
    (hwords : Word.erased ∉ words) : log'.OnRing where
  toInStep := h.toInStep.pushed hp hwords
  ring := by
    rw [hp.page_eq, hp.medium_eq h.powered, h.used_eq]
    exact h.ring.recordCalls log.two_le_pages h.holds hwords
  formatted := by
    have hheader := h.read_header_pushed hp hwords 0
    rw [Medium.isUnformatted, hheader]
    exact h.formatted
  activeSlot_eq := by
    rw [Medium.activeSlot_congr (h.load_pushed hp hwords), hp.page_eq]
    exact h.activeSlot_eq

theorem OnRing.fullRing_turned (h : log.OnRing) :
    log.turned.medium.FullRing log.turned.page :=
  h.ring.advance (fun _ hslot => h.read_turned hslot) rfl rfl h.holds_turned

theorem fullRing_cleared (hpowered : log.chip.supply = none) :
    log.cleared.medium.FullRing log.cleared.page := by
  rw [page_cleared hpowered]
  exact Medium.fullRing_of_initial log.pages_pos fun _ hslot => holds_cleared hpowered hslot

theorem OnRing.prepared (h : log.OnRing) (hpages : g.pages < 65536) (operation : Operation) :
    (log.prepared operation).OnRing := by
  cases operation with
  | append word => exact h
  | anchor => exact h
  | rotate => exact .of_fullRing h.toInStep.turned h.fullRing_turned hpages
  | eraseAll =>
    exact .of_fullRing (.cleared h.powered) (fullRing_cleared h.powered) hpages

theorem OnRing.perform (h : log.OnRing) (hpages : g.pages < 65536) {now : Instant}
    {operation : Operation} (hoperation : (Action.perform now operation).Regular g) :
    (log.perform now operation).OnRing :=
  (h.prepared hpages operation).pushed (log.pushed_perform now operation)
    (log.erased_not_mem_written hoperation)

/-! ## Booting -/

variable {chip : Chip g} {config : Config} {active : Page}

/-- Where the scan finds a page with a header, nothing is written to recover it. -/
theorem recover_of_filled (hpowered : chip.supply = none) (hfits : config.Fits g) {slot : Nat}
    (hactive : chip.medium.activeSlot = slot) (hfilled : chip.medium.isErased slot = false) :
    (recover chip config hfits.accepted).page = Page.load chip.medium slot ∧
      (recover chip config hfits.accepted).medium = chip.medium := by
  rw [(recover_spec chip config hfits.accepted).1, medium_recover hpowered, recoverCalls,
    recoveredPage, hactive, hfilled]
  exact ⟨rfl, rfl⟩

theorem recover_of_activeSlot (hpowered : chip.supply = none) (hring : chip.medium.Ring active)
    (hfits : config.Fits g) (hactive : chip.medium.activeSlot = active.slot) :
    (recover chip config hfits.accepted).page = active ∧
      (recover chip config hfits.accepted).medium = chip.medium := by
  have hnext := (Geometry.next_ne_self hring.slot_lt (Config.two_le_pages hfits.accepted)).symm
  have hholds := (hring.inTurn _ hring.slot_lt hnext).1
  have hrecover := recover_of_filled hpowered hfits hactive hholds.not_isErased
  rwa [hring.load_eq] at hrecover

/-- Where the scan takes an erased slot for the successor of the active page, it becomes that. -/
theorem fullRing_recover (hpowered : chip.supply = none) (hring : chip.medium.Ring active)
    (hfits : config.Fits g) (herased : chip.medium.isErased (g.next active.slot))
    (hactive : chip.medium.activeSlot = g.next active.slot) :
    (recover chip config hfits.accepted).medium.FullRing
        (recover chip config hfits.accepted).page ∧
      (recover chip config hfits.accepted).page =
        ⟨g.next active.slot, active.number + 1, config.headerSize⟩ := by
  have hpage : (recover chip config hfits.accepted).page =
      ⟨g.next active.slot, active.number + 1, config.headerSize⟩ := by
    rw [(recover_spec chip config hfits.accepted).1, recoveredPage, hactive, if_pos herased,
      Geometry.previous_next hring.slot_lt, hring.load_eq]
  refine ⟨?_, hpage⟩
  have hholds := holds_recoverCalls hring.sound hfits
  rw [← (recover_spec chip config hfits.accepted).1,
    ← medium_recover hpowered hfits.accepted] at hholds
  refine hring.advance (fun slot hslot => ?_) (by rw [hpage]) (by rw [hpage]) hholds
  rw [medium_recover hpowered]
  exact read_recoverCalls chip.medium config (hactive ▸ hslot)

/-- Recovery on a ring goes on with the active page, or with an erased slot behind it that the
scan takes for its successor. -/
theorem onRing_recover (hpowered : chip.supply = none) (hring : chip.medium.Ring active)
    (hformatted : chip.medium.isUnformatted = false) (hfits : config.Fits g)
    (hpages : g.pages < 65536) :
    (recover chip config hfits.accepted).OnRing ∧
      ((recover chip config hfits.accepted).page = active ∨
        chip.medium.isErased (g.next active.slot) ∧
          (recover chip config hfits.accepted).page.slot = g.next active.slot) := by
  have hstep := inStep_recover hpowered hring.sound hfits
  have hkeep : chip.medium.activeSlot = active.slot →
      (recover chip config hfits.accepted).OnRing ∧
        (recover chip config hfits.accepted).page = active := by
    intro hactive
    obtain ⟨hpage, hmedium⟩ := recover_of_activeSlot hpowered hring hfits hactive
    refine ⟨⟨hstep, ?_, ?_, ?_⟩, hpage⟩
    · rw [hpage, hmedium]
      exact hring
    · rw [hmedium]
      exact hformatted
    · rw [hpage, hmedium]
      exact hactive
  rcases hring.oldest with herased | holdest
  · have hnext : g.next active.slot ≠ 0 := by
      intro hzero
      rw [hzero] at herased
      have hunformatted := Medium.isUnformatted_of_isErased herased
      rw [hformatted] at hunformatted
      cases hunformatted
    have hactive := hring.activeSlot_of_isErased hpages herased hnext
    split at hactive
    · obtain ⟨hfull, hpage⟩ := fullRing_recover hpowered hring hfits herased hactive
      exact ⟨.of_fullRing hstep hfull hpages, .inr ⟨herased, by rw [hpage]⟩⟩
    · exact ⟨(hkeep hactive).1, .inl (hkeep hactive).2⟩
  · have hactive := (hring.full holdest).activeSlot_eq hpages
    exact ⟨(hkeep hactive).1, .inl (hkeep hactive).2⟩

theorem supply_format (hpowered : chip.supply = none) (headerSize : UInt8) :
    (chip.format headerSize).supply = none := by
  rw [Chip.format_eq, Chip.supply_performAll_powered hpowered]

/-- Where a word fits behind the header, a format leaves the pages of a fresh ring. -/
theorem holds_formatted (hpowered : chip.supply = none) {headerSize : UInt8}
    (hpos : 0 < headerSize.toNat) (hlt : headerSize.toNat < g.pageSize) {slot : Nat}
    (hslot : slot < g.pages) :
    (Page.initial g headerSize slot).Holds (chip.format headerSize).medium [] := by
  rw [Chip.format_eq, Chip.medium_performAll_powered hpowered]
  exact holds_format hpos hlt chip.medium (Nat.le_refl _) hslot

/-- On a medium that was formatted just now the run of numbers ends at slot zero. -/
theorem recover_format (hpowered : chip.supply = none) (hfits : config.Fits g)
    (hpages : g.pages < 65536) :
    (recover (chip.format config.headerSize) config hfits.accepted).page =
        Page.initial g config.headerSize 0 ∧
      (recover (chip.format config.headerSize) config hfits.accepted).medium =
        (chip.format config.headerSize).medium := by
  have hfull := Medium.fullRing_of_initial (pages_pos_of_accepted hfits.accepted)
    fun _ => holds_formatted hpowered hfits.headerSize_pos hfits.headerSize_lt
  exact recover_of_activeSlot (supply_format hpowered _) hfull.ring hfits
    (hfull.activeSlot_eq hpages)

/-- Recovery on a medium that was formatted just now starts a ring at slot zero, without words. -/
theorem fullRing_recover_format (hpowered : chip.supply = none) (hfits : config.Fits g)
    (hpages : g.pages < 65536) {log : Log g}
    (hlog : log = recover (chip.format config.headerSize) config hfits.accepted) :
    log.InStep ∧ log.medium.FullRing log.page ∧ log.page = Page.initial g config.headerSize 0 ∧
      ∀ slot < g.pages, log.medium.wordsAt slot = [] := by
  have hfull := Medium.fullRing_of_initial (pages_pos_of_accepted hfits.accepted)
    fun _ => holds_formatted hpowered hfits.headerSize_pos hfits.headerSize_lt
  obtain ⟨hpage, hmedium⟩ := recover_format hpowered hfits hpages
  rw [← hlog] at hpage hmedium
  refine ⟨?_, ?_, hpage, ?_⟩
  · rw [hlog]
    exact inStep_recover (supply_format hpowered _) hfull.ring.sound hfits
  · rw [hpage, hmedium]
    exact hfull
  · intro slot hslot
    rw [hmedium]
    have hholds := holds_formatted hpowered hfits.headerSize_pos hfits.headerSize_lt hslot
    exact hholds.wordsAt_eq

/-- A boot finds or starts a log on its ring. -/
theorem onRing_found (hpowered : chip.supply = none)
    (hring : chip.medium.isUnformatted = false → ∃ active, chip.medium.Ring active)
    (hfits : config.Fits g) (hpages : g.pages < 65536) :
    (found chip config hfits.accepted).OnRing := by
  unfold found
  split
  · obtain ⟨hstep, hfull, -⟩ := fullRing_recover_format hpowered hfits hpages rfl
    exact .of_fullRing hstep hfull hpages
  · rename_i hformatted
    rw [Bool.not_eq_true] at hformatted
    obtain ⟨active, hring⟩ := hring hformatted
    exact (onRing_recover hpowered hring hformatted hfits hpages).1

end Log

end RingLog
