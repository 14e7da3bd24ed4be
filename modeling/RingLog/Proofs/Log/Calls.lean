import RingLog.Log.Boot
import RingLog.Log.Operation
import RingLog.Proofs.Ring.Contents

/-!
# The calls of an operation

Each operation, and booting as well, makes a list of calls that is known beforehand: none of them
looks at the medium between two of its calls, except behind a format, and a format that the power
did not last for is followed by nothing. So what an interruption leaves on the medium is a first
part of that list (`Medium.applyAll`).

Main statements: `Log.pushed_append` and `Log.pushed_anchorTime`, an append only writes records;
`Log.chip_perform` and `Log.chip_boot`, an operation or a boot makes its calls and no others. They
hold of a chip with any supply.
-/

namespace RingLog

variable {g : Geometry}

/-- The word of an anchor. -/
def anchorWord (now : Instant) : Word :=
  (Record.anchor (UInt32.ofNat now.seconds)).encode

/-- The calls of formatting. -/
def formatCalls (g : Geometry) (headerSize : UInt8) : List Call :=
  (List.range g.pages).flatMap fun slot => (Page.initial g headerSize slot).establishCalls

theorem Chip.format_eq (chip : Chip g) (headerSize : UInt8) :
    chip.format headerSize = chip.performAll (formatCalls g headerSize) := by
  rw [Chip.performAll, formatCalls, List.foldl_flatMap]
  rfl

namespace Log

/-! ## Writing records -/

/-- `log'` is `log` after some words were written behind the records of its page, as far as there
was room for them. -/
structure Pushed (log log' : Log g) (words : List Word) : Prop where
  page_eq : log'.page = log.page
  config_eq : log'.config = log.config
  used_eq : log'.used = log.used + min words.length (log.page.capacity g - log.used)
  chip_eq : log'.chip = log.chip.performAll (Page.recordCalls g log.page log.used words)

variable {log log' : Log g}

theorem Pushed.trans {log'' : Log g} {words more : List Word} (h : log.Pushed log' words)
    (h' : log'.Pushed log'' more) : log.Pushed log'' (words ++ more) where
  page_eq := h'.page_eq.trans h.page_eq
  config_eq := h'.config_eq.trans h.config_eq
  used_eq := by
    rw [h'.used_eq, h.page_eq, h.used_eq, List.length_append]
    omega
  chip_eq := by
    rw [h'.chip_eq, h.chip_eq, h.page_eq, h.used_eq, ← Chip.performAll_append,
      ← Page.recordCalls_append]

/-- Only the page, the room on it, the configuration and the chip matter. -/
theorem Pushed.of_eq {log₁ log₂ : Log g} {words : List Word} (h : log.Pushed log' words)
    (hbefore : log₁.page = log.page ∧ log₁.config = log.config ∧ log₁.used = log.used ∧
      log₁.chip = log.chip)
    (hafter : log₂.page = log'.page ∧ log₂.config = log'.config ∧ log₂.used = log'.used ∧
      log₂.chip = log'.chip) : log₁.Pushed log₂ words := by
  obtain ⟨hpage, hconfig, hused, hchip⟩ := hbefore
  obtain ⟨hpage', hconfig', hused', hchip'⟩ := hafter
  refine ⟨?_, ?_, ?_, ?_⟩
  · rw [hpage', h.page_eq, hpage]
  · rw [hconfig', h.config_eq, hconfig]
  · rw [hused', h.used_eq, hpage, hused]
  · rw [hchip', h.chip_eq, hpage, hused, hchip]

theorem Pushed.refl (log : Log g) : log.Pushed log [] where
  page_eq := rfl
  config_eq := rfl
  used_eq := by rw [List.length_nil, Nat.zero_min, Nat.add_zero]
  chip_eq := rfl

theorem Pushed.used_pos {words : List Word} (h : log.Pushed log' words)
    (hcapacity : 0 < log.page.capacity g) (hwords : words ≠ []) : 0 < log'.used := by
  have hlength := List.length_pos_iff.mpr hwords
  rw [h.used_eq]
  omega

theorem pushed_push (log : Log g) (word : Word) : log.Pushed (log.push word) [word] := by
  unfold push
  split
  · rename_i hroom
    refine ⟨rfl, rfl, ?_, ?_⟩
    · rw [List.length_singleton]
      dsimp only
      omega
    · dsimp only
      rw [Page.write, if_pos hroom, Page.recordCalls, if_pos hroom]
      rfl
  · rename_i hfull
    refine ⟨rfl, rfl, ?_, ?_⟩
    · dsimp only
      omega
    · rw [Page.recordCalls, if_neg hfull]
      rfl

theorem pushed_writeAnchor (log : Log g) (now : Instant) :
    log.Pushed (log.writeAnchor now) [anchorWord now] :=
  (pushed_push { log with reference := Instant.ofSeconds now.seconds } _).of_eq
    ⟨rfl, rfl, rfl, rfl⟩ ⟨rfl, rfl, rfl, rfl⟩

theorem Pushed.requestRotation {words : List Word} (h : log.Pushed log' words) :
    log.Pushed log'.requestRotation words := by
  unfold Log.requestRotation
  split
  · exact h.of_eq ⟨rfl, rfl, rfl, rfl⟩ ⟨rfl, rfl, rfl, rfl⟩
  · exact h

/-- The records that account for the time since the reference. -/
def elapsedWords (log : Log g) (now : Instant) : List Word :=
  let elapsed := now.millisSince log.reference
  if Record.maxElapsed < elapsed then [anchorWord now]
  else if elapsed = 0 then []
  else [(Record.elapsed (UInt32.ofNat elapsed)).encode]

theorem pushed_writeElapsed (log : Log g) (now : Instant) :
    log.Pushed (log.writeElapsed now) (log.elapsedWords now) := by
  unfold writeElapsed elapsedWords
  dsimp only
  split
  · exact pushed_writeAnchor log now
  · split
    · exact .refl log
    · exact (pushed_push { log with reference := log.reference.addMillis _ } _).of_eq
        ⟨rfl, rfl, rfl, rfl⟩ ⟨rfl, rfl, rfl, rfl⟩

theorem pushed_append (log : Log g) (now : Instant) (word : Word) :
    log.Pushed (log.append now word) (log.elapsedWords now ++ [word]) :=
  ((log.pushed_writeElapsed now).trans (pushed_push _ word)).requestRotation

theorem pushed_anchorTime (log : Log g) (now : Instant) :
    log.Pushed (log.anchorTime now) [anchorWord now] :=
  (log.pushed_writeAnchor now).requestRotation

/-! ## Rotation and erasure -/

/-- The page that a rotation goes on with. -/
def rotatedPage (log : Log g) : Page :=
  ⟨g.next log.page.slot, log.page.number + 1, log.config.headerSize⟩

theorem next_slot_lt (log : Log g) : g.next log.page.slot < g.pages :=
  Geometry.next_lt log.pages_pos

theorem zero_le_capacity_rotatedPage (log : Log g) : 0 ≤ log.rotatedPage.capacity g :=
  Nat.zero_le _

/-- The log of a rotation before it records the time. -/
def turned (log : Log g) : Log g :=
  { log with
    chip := log.rotatedPage.establish log.chip
    page := log.rotatedPage
    used := 0
    rotationPending := false
    slot_lt := log.next_slot_lt
    used_le := log.zero_le_capacity_rotatedPage }

theorem pushed_rotate (log : Log g) (now : Instant) :
    log.turned.Pushed (log.rotate now) [anchorWord now] :=
  (log.turned.pushed_writeAnchor now).of_eq ⟨rfl, rfl, rfl, rfl⟩ ⟨rfl, rfl, rfl, rfl⟩

theorem chip_rotate (log : Log g) (now : Instant) : (log.rotate now).chip =
    log.chip.performAll (log.rotatedPage.establishCalls ++
      Page.recordCalls g log.rotatedPage 0 [anchorWord now]) := by
  rw [(log.pushed_rotate now).chip_eq, Chip.performAll_append]
  rfl

/-- The page that an erasure goes on with. -/
def firstPage (log : Log g) : Page :=
  Page.load (log.chip.format log.config.headerSize).medium 0

theorem zero_le_capacity_firstPage (log : Log g) : 0 ≤ log.firstPage.capacity g :=
  Nat.zero_le _

/-- The log of an erasure before it records the time. -/
def cleared (log : Log g) : Log g :=
  { log with
    chip := log.chip.format log.config.headerSize
    page := log.firstPage
    used := 0
    rotationPending := false
    dropped := 0
    slot_lt := log.pages_pos
    used_le := log.zero_le_capacity_firstPage }

theorem pushed_eraseAll (log : Log g) (now : Instant) :
    log.cleared.Pushed (log.eraseAll now) [anchorWord now] :=
  (log.cleared.pushed_writeAnchor now).of_eq ⟨rfl, rfl, rfl, rfl⟩ ⟨rfl, rfl, rfl, rfl⟩

end Log

/-! ## Formatting -/

theorem Page.fits_initial {headerSize : UInt8} (hpos : 0 < headerSize.toNat)
    (hlt : headerSize.toNat < g.pageSize) {slot : Nat} (hslot : slot < g.pages) :
    (Page.initial g headerSize slot).Fits g :=
  ⟨hslot, hpos, hlt⟩

/-- The first calls of a format leave their slots with a header, where there is room for one, and
nothing else. -/
theorem read_format (headerSize : UInt8) (medium : Medium g) {count slot : Nat}
    (hcount : count ≤ g.pages) (hslot : slot < count) (offset : Nat) :
    (medium.applyAll ((List.range count).flatMap
      fun slot => (Page.initial g headerSize slot).establishCalls)).read slot offset =
        if g.Contains slot offset ∧ offset = Header.offset then
          (Header.current headerSize (Page.initial g headerSize slot).number).encode
        else Word.erased := by
  induction count with
  | zero => omega
  | succ count ih =>
    rw [List.range_succ, List.flatMap_append, Medium.applyAll_append, List.flatMap_singleton]
    by_cases hlast : slot = count
    · subst hlast
      exact Page.read_establish _ (Page.initial g headerSize slot) offset
    · rw [Medium.read_applyAll_of_slot_ne, ih (by omega) (by omega)]
      intro call hcall
      rw [Page.slot_of_mem_establishCalls hcall]
      exact fun heq => hlast heq.symm

/-- The first calls of a format leave their slots with a header and nothing else. -/
theorem holds_format {headerSize : UInt8} (hpos : 0 < headerSize.toNat)
    (hlt : headerSize.toNat < g.pageSize) (medium : Medium g) {count slot : Nat}
    (hcount : count ≤ g.pages) (hslot : slot < count) :
    (Page.initial g headerSize slot).Holds (medium.applyAll ((List.range count).flatMap
      fun slot => (Page.initial g headerSize slot).establishCalls)) [] := by
  refine ⟨Page.fits_initial hpos hlt (by omega), Nat.zero_le _, List.not_mem_nil, fun offset => ?_⟩
  have hcontains : g.Contains slot Header.offset := ⟨by omega, Nat.zero_lt_of_lt hlt⟩
  refine (read_format headerSize medium hcount hslot offset).trans ?_
  unfold Page.image
  split
  · rename_i hheader
    rw [if_pos hheader.2]
    rfl
  · rename_i hother
    have hne : offset ≠ Header.offset := fun hoffset => hother ⟨hoffset ▸ hcontains, hoffset⟩
    rw [if_neg hne]
    split <;> rfl

theorem Config.Fits.headerSize_lt {config : Config} (h : config.Fits g) :
    config.headerSize.toNat < g.pageSize := by
  have := h.needed_le
  omega

/-- A formatted medium holds the pages of a fresh ring. -/
theorem Config.Fits.holds_format {config : Config} (h : config.Fits g) (medium : Medium g)
    {slot : Nat} (hslot : slot < g.pages) :
    (Page.initial g config.headerSize slot).Holds
      (medium.applyAll (formatCalls g config.headerSize)) [] :=
  RingLog.holds_format h.headerSize_pos h.headerSize_lt medium (Nat.le_refl _) hslot

namespace Log

variable {log : Log g}

theorem chip_eraseAll (log : Log g) (now : Instant) : (log.eraseAll now).chip =
    log.chip.performAll (formatCalls g log.config.headerSize ++
      Page.recordCalls g (Page.initial g log.config.headerSize 0) 0 [anchorWord now]) := by
  have hchip : log.cleared.chip = log.chip.performAll (formatCalls g log.config.headerSize) :=
    log.chip.format_eq _
  rw [(log.pushed_eraseAll now).chip_eq, Chip.performAll_append, ← hchip]
  by_cases hcut : log.cleared.chip.supply = some 0
  · rw [Chip.performAll_cut hcut, Chip.performAll_cut hcut]
  · -- the power lasted for the format, so the page loaded is the one written
    have hcarried : log.chip.carried (formatCalls g log.config.headerSize) =
        formatCalls g log.config.headerSize :=
      Chip.carried_of_supply_ne (hchip ▸ hcut)
    have hmedium : log.cleared.chip.medium =
        log.medium.applyAll (formatCalls g log.config.headerSize) := by
      rw [hchip, Chip.medium_performAll, hcarried]
    have hload : log.cleared.page = Page.initial g log.config.headerSize 0 := by
      have hholds := log.fits.holds_format log.medium log.pages_pos
      rw [← hmedium] at hholds
      exact hholds.load_eq
    rw [hload]
    rfl

/-- The calls of an operation. -/
def calls (log : Log g) (now : Instant) : Operation → List Call
  | .append word => Page.recordCalls g log.page log.used (log.elapsedWords now ++ [word])
  | .anchor => Page.recordCalls g log.page log.used [anchorWord now]
  | .rotate => log.rotatedPage.establishCalls ++
      Page.recordCalls g log.rotatedPage 0 [anchorWord now]
  | .eraseAll => formatCalls g log.config.headerSize ++
      Page.recordCalls g (Page.initial g log.config.headerSize 0) 0 [anchorWord now]

theorem chip_perform (log : Log g) (now : Instant) (operation : Operation) :
    (log.perform now operation).chip = log.chip.performAll (log.calls now operation) := by
  cases operation with
  | append word => exact (log.pushed_append now word).chip_eq
  | anchor => exact (log.pushed_anchorTime now).chip_eq
  | rotate => exact log.chip_rotate now
  | eraseAll => exact log.chip_eraseAll now

/-- The log of an operation before it writes its records. -/
def prepared (log : Log g) : Operation → Log g
  | .append _ | .anchor => log
  | .rotate => log.turned
  | .eraseAll => log.cleared

/-- The records that an operation writes, as far as there is room for them. -/
def written (log : Log g) (now : Instant) : Operation → List Word
  | .append word => log.elapsedWords now ++ [word]
  | .anchor | .rotate | .eraseAll => [anchorWord now]

theorem pushed_perform (log : Log g) (now : Instant) (operation : Operation) :
    (log.prepared operation).Pushed (log.perform now operation) (log.written now operation) := by
  cases operation with
  | append word => exact log.pushed_append now word
  | anchor => exact log.pushed_anchorTime now
  | rotate => exact log.pushed_rotate now
  | eraseAll => exact log.pushed_eraseAll now

theorem written_ne_nil (log : Log g) (now : Instant) (operation : Operation) :
    log.written now operation ≠ [] := by
  cases operation with
  | append word => exact List.append_ne_nil_of_right_ne_nil _ (List.cons_ne_nil _ _)
  | anchor | rotate | eraseAll => exact List.cons_ne_nil _ _

/-! ## Booting -/

/-- The page that a boot goes on with. -/
def recoveredPage (medium : Medium g) (config : Config) : Page :=
  if medium.isErased medium.activeSlot then
    ⟨medium.activeSlot, (Page.load medium (g.previous medium.activeSlot)).number + 1,
      config.headerSize⟩
  else Page.load medium medium.activeSlot

/-- The calls that give the active page a header if it has none. -/
def recoverCalls (medium : Medium g) (config : Config) : List Call :=
  if medium.isErased medium.activeSlot then [(recoveredPage medium config).headerCall] else []

theorem slot_recoveredPage (medium : Medium g) (config : Config) :
    (recoveredPage medium config).slot = medium.activeSlot := by
  unfold recoveredPage
  split <;> rfl

theorem recover_spec (chip : Chip g) (config : Config) (accepted : config.fault? g = none) :
    (recover chip config accepted).page = recoveredPage chip.medium config ∧
      (recover chip config accepted).config = config ∧
      (recover chip config accepted).used =
        (chip.medium.wordsAt chip.medium.activeSlot).length ∧
      (recover chip config accepted).chip = chip.performAll (recoverCalls chip.medium config) := by
  unfold recover recoverCalls recoveredPage
  dsimp only
  split
  · rename_i herased
    rw [Medium.wordsAt_of_isErased herased]
    exact ⟨rfl, rfl, rfl, rfl⟩
  · exact ⟨rfl, rfl, rfl, rfl⟩

/-- The log that a boot finds or starts, before it records the time. -/
def found (chip : Chip g) (config : Config) (accepted : config.fault? g = none) : Log g :=
  recover (if chip.medium.isUnformatted then chip.format config.headerSize else chip) config
    accepted

theorem found_of_unformatted {chip : Chip g} {config : Config}
    (h : chip.medium.isUnformatted) (accepted : config.fault? g = none) :
    found chip config accepted = recover (chip.format config.headerSize) config accepted := by
  rw [found, if_pos h]

theorem found_of_formatted {chip : Chip g} {config : Config}
    (h : chip.medium.isUnformatted = false) (accepted : config.fault? g = none) :
    found chip config accepted = recover chip config accepted := by
  rw [found, h, if_neg Bool.false_ne_true]

/-- Booting with an accepted configuration succeeds: it records the time in the log it found. -/
theorem boot_ok (chip : Chip g) {config : Config} (accepted : config.fault? g = none)
    (now : Instant) : ∃ log, boot chip config now = .ok log ∧
      (found chip config accepted).Pushed log [anchorWord now] := by
  have hresume : ∀ chip : Chip g, (recover chip config accepted).Pushed
      (resume chip config accepted now) [anchorWord now] := fun chip =>
    ((recover chip config accepted).note _ |>.pushed_anchorTime now).of_eq
      ⟨rfl, rfl, rfl, rfl⟩ ⟨rfl, rfl, rfl, rfl⟩
  unfold boot found
  split
  · rename_i fault hfault
    rw [accepted] at hfault
    cases hfault
  · split
    · exact ⟨_, rfl, (hresume _).of_eq ⟨rfl, rfl, rfl, rfl⟩ ⟨rfl, rfl, rfl, rfl⟩⟩
    · exact ⟨_, rfl, hresume chip⟩

/-- The calls of a boot on a medium with a log. -/
def resumeCalls (medium : Medium g) (config : Config) (now : Instant) : List Call :=
  recoverCalls medium config ++ Page.recordCalls g (recoveredPage medium config)
    (medium.wordsAt medium.activeSlot).length [anchorWord now]

/-- The calls of a boot. -/
def bootCalls (medium : Medium g) (config : Config) (now : Instant) : List Call :=
  if medium.isUnformatted then
    formatCalls g config.headerSize ++
      resumeCalls (medium.applyAll (formatCalls g config.headerSize)) config now
  else resumeCalls medium config now

theorem chip_resume (chip : Chip g) {config : Config} (accepted : config.fault? g = none)
    {now : Instant} (h : (recover chip config accepted).Pushed log [anchorWord now]) :
    log.chip = chip.performAll (resumeCalls chip.medium config now) := by
  obtain ⟨hpage, -, hused, hchip⟩ := recover_spec chip config accepted
  rw [h.chip_eq, hpage, hused, hchip, resumeCalls, Chip.performAll_append]

theorem accepted_of_boot {chip : Chip g} {config : Config} {now : Instant}
    (h : boot chip config now = .ok log) : config.fault? g = none := by
  unfold boot at h
  split at h
  · cases h
  · assumption

theorem pushed_boot {chip : Chip g} {config : Config} {now : Instant}
    (h : boot chip config now = .ok log) :
    (found chip config (accepted_of_boot h)).Pushed log [anchorWord now] := by
  obtain ⟨_, hboot, hpushed⟩ := boot_ok chip (accepted_of_boot h) now
  rw [hboot] at h
  cases h
  exact hpushed

theorem chip_boot {chip : Chip g} {config : Config} {now : Instant}
    (h : boot chip config now = .ok log) :
    log.chip = chip.performAll (bootCalls chip.medium config now) := by
  have accepted := accepted_of_boot h
  have hpushed := pushed_boot h
  unfold found at hpushed
  unfold bootCalls
  split
  · rename_i hunformatted
    rw [if_pos hunformatted] at hpushed
    rw [chip_resume _ accepted hpushed, Chip.performAll_append, Chip.format_eq]
    by_cases hcut : (chip.performAll (formatCalls g config.headerSize)).supply = some 0
    · rw [Chip.performAll_cut hcut, Chip.performAll_cut hcut]
    · rw [Chip.medium_performAll, Chip.carried_of_supply_ne hcut]
  · rename_i hformatted
    rw [if_neg hformatted] at hpushed
    exact chip_resume chip accepted hpushed

end Log

end RingLog
