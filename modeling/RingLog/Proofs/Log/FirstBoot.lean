import RingLog.Proofs.Log.Entries
import RingLog.Proofs.Log.Footprint

/-!
# The first boot on a ring of any size

The first boot numbers the slots of a blank medium so that the run of numbers ends in slot zero, and
then looks for the end of the run. Numbers have sixteen bits. On a ring whose pages are a multiple
of 65536 the number of slot one is the successor of that of slot zero, so the run does not break
there but goes on to the last slot. The log starts in that slot instead, and stays there with every
further boot.

Main statements: `Medium.Laid.activeSlot_eq`, `Log.settles_iff` and `Log.not_settles`.
-/

namespace RingLog

variable {g : Geometry}

/-- The slot where the first boot on a blank medium goes on. -/
def Geometry.firstSlot (g : Geometry) : Nat :=
  if 65536 ∣ g.pages then g.pages - 1 else 0

/-- The slots have the headers of a fresh ring. Records may follow. -/
def Medium.Laid (medium : Medium g) (headerSize : UInt8) : Prop :=
  ∀ slot < g.pages, medium.read slot Header.offset =
    (Header.current headerSize (Page.initial g headerSize slot).number).encode

/-! ## The numbers of a fresh ring -/

/-- The numbers of a fresh ring rise from slot to slot. Slot zero and slot one are an exception,
unless the ring has a multiple of 65536 pages. -/
theorem Page.number_initial_succ (headerSize : UInt8) {slot : Nat} (hlt : slot + 1 < g.pages) :
    (initial g headerSize slot).number + 1 = (initial g headerSize (slot + 1)).number ↔
      slot ≠ 0 ∨ 65536 ∣ g.pages := by
  have hsucc : slot + 1 ≠ 0 := Nat.succ_ne_zero slot
  simp only [initial, if_neg hsucc, ← UInt16.toNat_inj]
  split
  · rename_i hzero
    subst hzero
    simp only [UInt16.toNat_add, UInt16.toNat_sub, UInt16.toNat_ofNat', UInt16.reduceToNat]
    omega
  · simp only [UInt16.toNat_add, UInt16.toNat_sub, UInt16.toNat_ofNat', UInt16.reduceToNat]
    omega

namespace Medium

variable {medium : Medium g} {headerSize : UInt8} {slot : Nat}

theorem laid_format (hsize : 0 < g.pageSize) (medium : Medium g) (headerSize : UInt8) :
    (medium.applyAll (formatCalls g headerSize)).Laid headerSize := by
  intro slot hslot
  have hread := read_format headerSize medium (Nat.le_refl _) hslot Header.offset
  rwa [if_pos ⟨⟨hslot, hsize⟩, rfl⟩] at hread

theorem Laid.load_eq (h : medium.Laid headerSize) (hslot : slot < g.pages) :
    Page.load medium slot = Page.initial g headerSize slot := by
  rw [Page.load, h slot hslot, Header.decode_encode]
  rfl

theorem Laid.not_isErased (h : medium.Laid headerSize) (hslot : slot < g.pages) :
    medium.isErased slot = false := by
  rw [Bool.eq_false_iff]
  intro herased
  have hread := isErased_iff.mp herased Header.offset
  rw [h slot hslot] at hread
  exact Header.encode_current_ne_erased _ _ hread

/-! ## The end of the run -/

theorem Laid.continuesAt_iff (h : medium.Laid headerSize) (hlt : slot + 1 < g.pages) :
    medium.continuesAt slot ↔ slot ≠ 0 ∨ 65536 ∣ g.pages := by
  rw [continuesAt, h.load_eq (Nat.lt_of_succ_lt hlt), h.load_eq hlt, beq_iff_eq]
  exact Page.number_initial_succ headerSize hlt

/-- The run of a fresh ring ends in slot zero, unless it spans the whole ring. -/
theorem Laid.activeSlot_eq (h : medium.Laid headerSize) (hpages : 2 ≤ g.pages) :
    medium.activeSlot = g.firstSlot := by
  by_cases hspans : 65536 ∣ g.pages
  · rw [Geometry.firstSlot, if_pos hspans]
    refine Medium.activeSlot_eq (by omega) (fun slot hslot => ?_) fun hlt => by omega
    exact (h.continuesAt_iff (by omega)).mpr (.inr hspans)
  · rw [Geometry.firstSlot, if_neg hspans]
    refine Medium.activeSlot_eq (by omega) (fun slot hslot => absurd hslot (Nat.not_lt_zero slot))
      fun hlt => ?_
    rw [Bool.eq_false_iff, Ne, h.continuesAt_iff hlt]
    rintro (hne | hdvd)
    · exact hne rfl
    · exact hspans hdvd

end Medium

namespace Log

variable {log : Log g} {chip : Chip g} {config : Config} {now : Instant} {headerSize : UInt8}

/-- A boot keeps the headers that it finds. -/
theorem recoveredPage_of_laid {medium : Medium g} (h : medium.Laid headerSize)
    (hpages : 2 ≤ g.pages) (config : Config) :
    recoveredPage medium config = Page.initial g headerSize g.firstSlot := by
  have hlt := medium.activeSlot_lt (Nat.zero_lt_of_lt hpages)
  rw [h.activeSlot_eq hpages] at hlt
  rw [recoveredPage, h.activeSlot_eq hpages, h.not_isErased hlt, if_neg Bool.false_ne_true,
    h.load_eq hlt]

/-- Where there are headers, a boot has none to write. -/
theorem medium_recover_of_laid (hpowered : chip.supply = none) (h : chip.medium.Laid headerSize)
    (accepted : config.fault? g = none) :
    (recover chip config accepted).medium = chip.medium := by
  have hlt := chip.medium.activeSlot_lt (pages_pos_of_accepted accepted)
  rw [medium_recover hpowered, recoverCalls, h.not_isErased hlt, if_neg Bool.false_ne_true]
  rfl

theorem laid_chip_format (hpowered : chip.supply = none) (hfits : config.Fits g) :
    (chip.format config.headerSize).medium.Laid config.headerSize := by
  rw [Chip.format_eq, Chip.medium_performAll_powered hpowered]
  exact Medium.laid_format (Nat.zero_lt_of_lt hfits.headerSize_lt) _ _

/-! ## Boots -/

/-- The log is where the first boot starts it, on a ring with the headers of a fresh one. -/
structure Rests (log : Log g) : Prop where
  powered : log.chip.supply = none
  laid : ∃ headerSize, log.medium.Laid headerSize
  slot_eq : log.page.slot = g.firstSlot
  number_eq : log.page.number = (Page.initial g 0 g.firstSlot).number

theorem Rests.pushed {log' : Log g} {words : List Word} (h : log.Rests) (hguarded : log.Guarded)
    (hp : log.Pushed log' words) : log'.Rests where
  powered := by rw [hp.chip_eq, Chip.supply_performAll_powered h.powered]
  laid := by
    obtain ⟨headerSize, hlaid⟩ := h.laid
    refine ⟨headerSize, fun slot hslot => ?_⟩
    rw [hp.read_eq h.powered (.inr (.inl hguarded.behind_header))]
    exact hlaid slot hslot
  slot_eq := by rw [hp.page_eq, h.slot_eq]
  number_eq := by rw [hp.page_eq, h.number_eq]

theorem rests_recover (hpowered : chip.supply = none) (h : chip.medium.Laid headerSize)
    (accepted : config.fault? g = none) : (recover chip config accepted).Rests := by
  obtain ⟨hpage, -, -, hchip⟩ := recover_spec chip config accepted
  rw [recoveredPage_of_laid h (Config.two_le_pages accepted)] at hpage
  refine ⟨?_, ⟨headerSize, ?_⟩, ?_, ?_⟩
  · rw [hchip, Chip.supply_performAll_powered hpowered]
  · rw [medium_recover_of_laid hpowered h accepted]
    exact h
  · rw [hpage]
    rfl
  · rw [hpage]
    rfl

/-- A boot on a medium that was never used, or was laid out by such a boot. -/
theorem rests_boot (hpowered : chip.supply = none)
    (hchip : chip.medium.isUnformatted ∨ ∃ headerSize, chip.medium.Laid headerSize)
    (h : boot chip config now = .ok log) : log.Rests := by
  have accepted := accepted_of_boot h
  refine Rests.pushed ?_ (guarded_found hpowered config accepted) (pushed_boot h)
  by_cases hunformatted : chip.medium.isUnformatted
  · rw [found_of_unformatted hunformatted]
    exact rests_recover (supply_format hpowered _) (laid_chip_format hpowered accepted) accepted
  · obtain ⟨headerSize, hlaid⟩ := hchip.resolve_left hunformatted
    rw [found_of_formatted (Bool.eq_false_iff.mpr hunformatted)]
    exact rests_recover hpowered hlaid accepted

/-- Further boots leave the log where it is. -/
theorem Rests.boots (h : log.Rests) (boots : List (Config × Instant))
    (haccepted : ∀ again ∈ boots, again.1.fault? g = none) :
    ∃ log', (Device.running log).actAll (boots.map fun again => .boot again.1 again.2) =
      .running log' ∧ log'.Rests := by
  induction boots generalizing log with
  | nil => exact ⟨log, rfl, h⟩
  | cons again rest ih =>
    obtain ⟨middle, hboot, -⟩ := boot_ok log.chip (haccepted again List.mem_cons_self) again.2
    obtain ⟨log', hrun, hrests⟩ := ih (rests_boot h.powered (.inr h.laid) hboot)
      fun other hother => haccepted other (List.mem_cons_of_mem _ hother)
    have hact : (Device.running log).act (.boot again.1 again.2) = .running middle :=
      Device.act_boot hboot
    refine ⟨log', ?_, hrests⟩
    rw [List.map_cons, Device.actAll, List.foldl_cons, hact]
    exact hrun

/-! ## The first boot -/

theorem page_boot_blank (h : boot { medium := .blank g } config now = .ok log) :
    log.page = Page.initial g config.headerSize g.firstSlot := by
  have accepted := accepted_of_boot h
  have hpage := (pushed_boot h).page_eq
  rw [found_of_unformatted (Medium.isUnformatted_blank g), (recover_spec ..).1,
    recoveredPage_of_laid (laid_chip_format rfl accepted) (Config.two_le_pages accepted)] at hpage
  exact hpage

/-- The first page is found empty. -/
theorem holds_recover_format (hpowered : chip.supply = none) (accepted : config.fault? g = none) :
    let first := recover (chip.format config.headerSize) config accepted
    first.page.Holds first.medium [] ∧ first.used = 0 := by
  have hpages := Config.two_le_pages accepted
  have hroom := Config.Fits.headerSize_lt accepted
  have hlaid := laid_chip_format hpowered accepted
  have hactive := hlaid.activeSlot_eq hpages
  have hlt : g.firstSlot < g.pages :=
    hactive ▸ Medium.activeSlot_lt _ (Nat.zero_lt_of_lt hpages)
  have hholds := holds_formatted hpowered (Config.headerSize_pos_of_accepted accepted) hroom hlt
  obtain ⟨hpage, -, hused, -⟩ := recover_spec (chip.format config.headerSize) config accepted
  rw [recoveredPage_of_laid hlaid hpages] at hpage
  refine ⟨?_, ?_⟩
  · rw [hpage, medium_recover_of_laid (supply_format hpowered _) hlaid accepted]
    exact hholds
  · rw [hused, hactive]
    exact congrArg List.length hholds.wordsAt_eq

/-- The anchor of the first boot is the first record of its page. -/
theorem activeWords_boot_blank (h : boot { medium := .blank g } config now = .ok log) :
    log.activeWords = [anchorWord now] := by
  have accepted := accepted_of_boot h
  have hpushed := pushed_boot h
  have hblank : ({ medium := .blank g } : Chip g).supply = none := rfl
  rw [found_of_unformatted (Medium.isUnformatted_blank g)] at hpushed
  obtain ⟨hholds, hempty⟩ := holds_recover_format hblank accepted
  have hcapacity := hholds.fits.capacity_pos
  have hstored := hholds.applyAll_recordCalls (erased_not_mem_anchor now)
  rw [List.nil_append, List.length_nil, Nat.sub_zero,
    List.take_of_length_le (by rwa [List.length_singleton])] at hstored
  refine activeWords_of_holds ?_ ?_
  · have hsupply := supply_format hblank config.headerSize
    have hpowered := (guarded_recover hsupply config accepted).powered
    rw [hpushed.medium_eq hpowered, hpushed.page_eq, hempty]
    exact hstored
  · rw [hpushed.used_eq, hempty, List.length_singleton]
    omega

/-- The log starts in slot zero with page number zero and the anchor of its boot, and a further boot
finds it there. -/
structure Settles (log : Log g) (now : Instant) : Prop where
  slot_eq : log.page.slot = 0
  number_eq : log.page.number = 0
  anchored : log.activeWords = [anchorWord now]
  resumes : ∀ (again : Config) (later : Instant), again.fault? g = none →
    ∃ log', boot log.chip again later = .ok log' ∧ log'.page.slot = 0

/-- A wrapped number is no obstacle, unless it makes the run span the ring. -/
theorem settles_boot_blank (h : boot { medium := .blank g } config now = .ok log) :
    log.Settles now ↔ ¬65536 ∣ g.pages := by
  have hrests := rests_boot rfl (.inl (Medium.isUnformatted_blank g)) h
  constructor
  · intro hsettles hspans
    have hlast : g.firstSlot = g.pages - 1 := if_pos hspans
    have hslot := hrests.slot_eq
    rw [hsettles.slot_eq, hlast] at hslot
    have hpages := log.two_le_pages
    omega
  · intro hspans
    have hfirst : g.firstSlot = 0 := if_neg hspans
    refine ⟨?_, ?_, activeWords_boot_blank h, fun again later haccepted => ?_⟩
    · rw [hrests.slot_eq, hfirst]
    · rw [hrests.number_eq, hfirst]
      rfl
    · obtain ⟨log', hagain, -⟩ := boot_ok log.chip haccepted later
      have hrests' := rests_boot hrests.powered (.inr hrests.laid) hagain
      exact ⟨log', hagain, hrests'.slot_eq.trans hfirst⟩

/-- A medium that was never used is opened, and then opened again any number of times, with accepted
configurations and on a ring of any size. The log settles in slot zero just if the number of pages
is not a multiple of 65536, and otherwise it starts in the last slot. Its first record is the
anchor. Further boots find it in the slot where it is. -/
theorem settles_iff (accepted : config.fault? g = none) (now : Instant) :
    ∃ log, boot { medium := .blank g } config now = .ok log ∧
      (log.Settles now ↔ ¬65536 ∣ g.pages) ∧
      log.page = Page.initial g config.headerSize g.firstSlot ∧
      log.activeWords = [anchorWord now] ∧
      ∀ boots : List (Config × Instant), (∀ again ∈ boots, again.1.fault? g = none) →
        ∃ log', (Device.running log).actAll (boots.map fun again => .boot again.1 again.2) =
          .running log' ∧ log'.page.slot = log.page.slot ∧
            log'.page.number = log.page.number := by
  obtain ⟨log, hboot, -⟩ := boot_ok { medium := .blank g } accepted now
  have hrests := rests_boot rfl (.inl (Medium.isUnformatted_blank g)) hboot
  refine ⟨log, hboot, settles_boot_blank hboot, page_boot_blank hboot,
    activeWords_boot_blank hboot, fun boots haccepted => ?_⟩
  obtain ⟨log', hrun, hrests'⟩ := hrests.boots boots haccepted
  refine ⟨log', hrun, ?_, ?_⟩
  · rw [hrests'.slot_eq, hrests.slot_eq]
  · rw [hrests'.number_eq, hrests.number_eq]

/-- The smallest ring that the run of numbers spans. -/
theorem settles_iff_spanned :
    let config : Config := ⟨2, 1⟩
    let start : Instant := .ofSeconds 100
    let again : Action := .boot config (.ofSeconds 101)
    config.fault? ⟨65536, 8⟩ = none ∧
      ∃ log, boot { medium := .blank ⟨65536, 8⟩ } config start = .ok log ∧
        log.page = ⟨65535, 0xffff, 1⟩ ∧ log.activeWords = [100] ∧ ¬log.Settles start ∧
        ∃ log', (Device.running log).act again = .running log' ∧ log'.page.slot = 65535 := by
  intro config start again
  have accepted : config.fault? ⟨65536, 8⟩ = none := by decide
  obtain ⟨log, hboot, hiff, hpage, hwords, hboots⟩ := settles_iff accepted start
  have hlast : log.page = ⟨65535, 0xffff, 1⟩ := hpage.trans (by decide)
  have hanchor : log.activeWords = [100] := hwords.trans (by decide)
  have haccepted : ∀ other ∈ [(config, Instant.ofSeconds 101)], other.1.fault? ⟨65536, 8⟩ = none :=
    fun other hother => List.mem_singleton.mp hother ▸ accepted
  obtain ⟨log', hrun, hslot, -⟩ := hboots _ haccepted
  rw [hlast] at hslot
  exact ⟨accepted, log, hboot, hlast, hanchor, fun hsettles => hiff.mp hsettles ⟨1, rfl⟩, log',
    hrun, hslot⟩

/-- The first boot does not settle in slot zero on every ring. -/
theorem not_settles : ¬∀ (g : Geometry) (config : Config) (now : Instant) (log : Log g),
    boot { medium := .blank g } config now = .ok log → log.Settles now := by
  intro hsettles
  have accepted : (⟨2, 1⟩ : Config).fault? ⟨65536, 8⟩ = none := by decide
  obtain ⟨log, hboot, -⟩ := boot_ok { medium := .blank ⟨65536, 8⟩ } accepted (.ofSeconds 100)
  exact (settles_boot_blank hboot).mp (hsettles _ _ _ _ hboot) ⟨1, rfl⟩

end Log

end RingLog
