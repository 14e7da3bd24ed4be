import RingLog.Proofs.Log.Interruption
import RingLog.Proofs.Log.Leaves

/-!
# Interrupted erasures

An erasure formats one slot after another, from slot zero on. If the power fails in it, the slots
behind hold pages from before still. The next boot goes on in slot zero and the log counts up from
there, so that slots and numbers agree (`Log.Climbs`) until it has been around the ring once.

An old page whose number is that of its slot is then waiting for the log: as soon as the slot
before it is written, the scan takes it for the successor and the next boot goes on with it. This
is the only way to lose the log, but for one case: the power fails just behind the header of slot
zero, and the page behind it has number one. Then what was left of the old ring is a full ring.

Main statements: `Device.endures_iff` and `Device.not_endures_cut`.
-/

namespace RingLog

variable {g : Geometry}

/-! ## A format that the power does not last for -/

theorem length_flatMap_establishCalls (headerSize : UInt8) (slots : List Nat) :
    (slots.flatMap fun slot => (Page.initial g headerSize slot).establishCalls).length =
      2 * slots.length := by
  induction slots with
  | nil => rfl
  | cons slot rest ih =>
    rw [List.flatMap_cons, List.length_append, ih, List.length_cons]
    simp only [Page.establishCalls, List.length_cons, List.length_nil]
    omega

/-- The calls for the slots below some count come first. -/
theorem take_formatCalls (headerSize : UInt8) {count : Nat} (hcount : count ≤ g.pages)
    (more : Nat) : (formatCalls g headerSize).take (2 * count + more) =
      ((List.range count).flatMap fun slot => (Page.initial g headerSize slot).establishCalls) ++
        ((List.range (g.pages - count)).flatMap fun slot =>
          (Page.initial g headerSize (count + slot)).establishCalls).take more := by
  obtain ⟨rest, hrest⟩ := Nat.exists_eq_add_of_le hcount
  have hlength := length_flatMap_establishCalls (g := g) headerSize (List.range count)
  rw [List.length_range] at hlength
  rw [formatCalls, hrest, Nat.add_sub_cancel_left, List.range_add, List.flatMap_append,
    List.flatMap_map, ← hlength, List.take_length_add_append]

theorem length_formatCalls (headerSize : UInt8) :
    (formatCalls g headerSize).length = 2 * g.pages := by
  rw [formatCalls, length_flatMap_establishCalls, List.length_range]

namespace Medium

variable {medium medium' : Medium g} {headerSize : UInt8} {count slot : Nat}

/-- The slots that a format has not come to are as before. -/
theorem read_formatCalls (hcount : count ≤ 2 * slot) (hslot : slot < g.pages) (offset : Nat) :
    (medium.applyAll ((formatCalls g headerSize).take count)).read slot offset =
      medium.read slot offset := by
  refine read_applyAll_of_slot_ne (fun call hcall => ?_) offset
  have hfirst := List.take_subset_take_left _ hcount hcall
  rw [← Nat.add_zero (2 * slot), take_formatCalls headerSize (Nat.le_of_lt hslot), List.take_zero,
    List.append_nil] at hfirst
  obtain ⟨earlier, hearlier, hcall⟩ := List.mem_flatMap.mp hfirst
  rw [Page.slot_of_mem_establishCalls hcall]
  exact Nat.ne_of_lt (List.mem_range.mp hearlier)

theorem isErased_formatCalls (hslot : slot < g.pages) :
    (medium.applyAll ((formatCalls g headerSize).take (2 * slot + 1))).isErased slot := by
  obtain ⟨rest, hrest⟩ := Nat.exists_eq_add_of_lt hslot
  have hleft : g.pages - slot = rest + 1 := by omega
  rw [take_formatCalls headerSize (Nat.le_of_lt hslot), hleft, List.range_succ_eq_map,
    List.flatMap_cons, applyAll_append]
  exact isErased_apply_erase _ slot

/-- The slots that a format is done with hold the pages of a fresh ring. -/
theorem holds_formatCalls (medium : Medium g) (hpos : 0 < headerSize.toNat)
    (hlt : headerSize.toNat < g.pageSize) (hcount : 2 * slot + 2 ≤ count) (hslot : slot < g.pages) :
    (Page.initial g headerSize slot).Holds
      (medium.applyAll ((formatCalls g headerSize).take count)) [] := by
  obtain ⟨more, rfl⟩ := Nat.exists_eq_add_of_le hcount
  rw [← Nat.mul_succ, take_formatCalls headerSize hslot, applyAll_append]
  refine (holds_format hpos hlt medium hslot (Nat.lt_succ_self slot)).congr fun offset => ?_
  refine read_applyAll_of_slot_ne (fun call hcall => ?_) offset
  obtain ⟨later, -, hlater⟩ := List.mem_flatMap.mp (List.mem_of_mem_take hcall)
  rw [Page.slot_of_mem_establishCalls hlater]
  exact Nat.ne_of_gt (Nat.lt_of_lt_of_le (Nat.lt_succ_self slot) (Nat.le_add_right _ later))

end Medium

/-- A page of a fresh ring never has the number of its slot, but in slot zero. -/
theorem Page.number_initial_ne {headerSize : UInt8} {slot : Nat} (hslot : slot ≠ 0)
    (hlt : slot < g.pages) (hpages : g.pages < 65536) :
    (Page.initial g headerSize slot).number ≠ UInt16.ofNat slot := by
  unfold Page.initial
  dsimp only
  rw [if_neg hslot]
  intro heq
  have hnat := congrArg UInt16.toNat heq
  simp only [UInt16.toNat_sub, UInt16.toNat_ofNat'] at hnat
  omega

/-! ## Slots with their own numbers -/

namespace Medium

variable {medium medium' : Medium g} {active : Page} {slot : Nat}

theorem lt_activeSlot (hlt : slot + 1 < g.pages) (hrun : ∀ s ≤ slot, medium.continuesAt s) :
    slot < medium.activeSlot := by
  unfold activeSlot
  cases hfind : (List.range (g.pages - 1)).find? fun s => !medium.continuesAt s with
  | none =>
    rw [Option.getD_none]
    omega
  | some s =>
    have hbreak := List.find?_some hfind
    rw [Option.getD_some]
    by_contra hle
    rw [hrun s (Nat.le_of_not_lt hle)] at hbreak
    exact Bool.false_ne_true hbreak

/-- The slot holds a page that has the number of the slot. -/
def Counted (medium : Medium g) (slot : Nat) : Prop :=
  medium.Filled slot ∧ (Page.load medium slot).number = UInt16.ofNat slot

theorem counted_of_holds {page : Page} {words : List Word} (h : page.Holds medium words)
    (hnumber : page.number = UInt16.ofNat page.slot) : medium.Counted page.slot :=
  ⟨h.filled, by rw [h.load_eq, hnumber]⟩

theorem counted_congr (h : ∀ offset, medium'.read slot offset = medium.read slot offset) :
    medium'.Counted slot ↔ medium.Counted slot := by
  rw [Counted, Counted, filled_congr h, load_congr h]

theorem Counted.inTurn (h : medium.Counted slot)
    (hactive : active.number = UInt16.ofNat active.slot) (hle : slot ≤ active.slot) :
    medium.InTurn active slot := by
  refine ⟨h.1, ?_⟩
  rw [h.2, numberAt, hactive, Geometry.distance_of_le hle, ← UInt16.ofNat_sub (Nat.sub_le _ _),
    Nat.sub_sub_self hle]

/-- A ring whose slots all have their own numbers ends at the last slot. -/
theorem fullRing_of_counted (hpages : 0 < g.pages) (h : ∀ slot < g.pages, medium.Counted slot) :
    medium.FullRing (Page.load medium (g.pages - 1)) := by
  have hlast : g.pages - 1 < g.pages := Nat.sub_one_lt_of_lt hpages
  exact ⟨hlast, rfl, fun slot hslot =>
    (h slot hslot).inTurn (h _ hlast).2 (Nat.le_sub_one_of_lt hslot)⟩

/-- If slot one has number one, the slots behind it have their own numbers as well, until the ring
ends. -/
theorem FullRing.counted (h : medium.FullRing active) (hpages : 2 ≤ g.pages)
    (hone : (Page.load medium 1).number = 1) (hslot : slot < g.pages) (hne : slot ≠ 0)
    (hle : active.slot = 0 ∨ slot ≤ active.slot) : medium.Counted slot := by
  have hfirst := (h.inTurn 1 hpages).2
  have hback := UInt16.sub_add_cancel active.number (UInt16.ofNat (g.distance 1 active.slot))
  have hdistance : g.distance 1 active.slot + 1 = slot + g.distance slot active.slot := by
    have hactive := h.slot_lt
    unfold Geometry.distance
    split <;> split <;> omega
  refine ⟨(h.inTurn slot hslot).1, ?_⟩
  rw [hone, numberAt] at hfirst
  rw [← hfirst, UInt16.add_comm, ← UInt16.ofNat_one, ← UInt16.ofNat_add, hdistance,
    UInt16.ofNat_add] at hback
  rw [(h.inTurn slot hslot).2, numberAt, ← hback, UInt16.add_sub_cancel]

/-- If slot zero gets the number zero, and slot one has number one, the ring is none the worse: it
ends where the numbers end that count up from there. -/
theorem FullRing.restart (h : medium.FullRing active) (hpages : 2 ≤ g.pages)
    (hone : (Page.load medium 1).number = 1) (hread : ∀ slot < g.pages, slot ≠ 0 →
      ∀ offset, medium'.read slot offset = medium.read slot offset)
    (hzero : medium'.Counted 0) :
    ∃ slot, slot ≠ 0 ∧ slot < g.pages ∧ medium'.FullRing (Page.load medium slot) := by
  by_cases hactive : active.slot = 0
  · have hlast : g.pages - 1 < g.pages ∧ g.pages - 1 ≠ 0 := by omega
    refine ⟨g.pages - 1, hlast.2, hlast.1, ?_⟩
    rw [← load_congr (hread _ hlast.1 hlast.2)]
    refine fullRing_of_counted (by omega) fun slot hslot => ?_
    by_cases hne : slot = 0
    · exact hne ▸ hzero
    · exact (counted_congr (hread slot hslot hne)).mpr
        (h.counted hpages hone hslot hne (.inl hactive))
  · have hload := load_congr (hread _ h.slot_lt hactive)
    refine ⟨active.slot, hactive, h.slot_lt, h.slot_lt, hload, fun slot hslot => ?_⟩
    by_cases hne : slot = 0
    · have hnumber := (h.counted hpages hone h.slot_lt hactive (.inr (Nat.le_refl _))).2
      exact hne ▸ hzero.inTurn hnumber (Nat.zero_le _)
    · rw [inTurn_congr (hread slot hslot hne), h.load_eq]
      exact h.inTurn slot hslot

end Medium

namespace Log

variable {log log' : Log g} {base : Medium g} {words : List Word}

/-! ## Counting up from slot zero -/

/-- The log counts its pages up from slot zero, and the slots ahead of it are as the medium says. -/
structure Climbs (base : Medium g) (log : Log g) : Prop extends log.InStep where
  counts : ∀ slot ≤ log.page.slot, log.medium.Counted slot
  ahead : ∀ slot, log.page.slot < slot → ∀ offset,
    log.medium.read slot offset = base.read slot offset

theorem Climbs.number_eq (h : Climbs base log) : log.page.number = UInt16.ofNat log.page.slot := by
  have hnumber := (h.counts _ (Nat.le_refl _)).2
  rwa [h.holds.load_eq] at hnumber

theorem Climbs.inTurn (h : Climbs base log) {slot : Nat} (hslot : slot ≤ log.page.slot) :
    log.medium.InTurn log.page slot :=
  (h.counts slot hslot).inTurn h.number_eq hslot

theorem Climbs.formatted (h : Climbs base log) : log.medium.isUnformatted = false :=
  (h.counts 0 (Nat.zero_le _)).1.isUnformatted_eq

/-- A boot goes on where the log is if no page ahead has the next number. -/
theorem Climbs.resumes (h : Climbs base log) (hnext : log.page.slot + 1 < g.pages →
      (Page.load base (log.page.slot + 1)).number ≠ UInt16.ofNat (log.page.slot + 1))
    {config : Config} (hfits : config.Fits g) (now : Instant) : log.Resumes config now := by
  refine h.toInStep.resumes h.formatted ?_ hfits now
  refine Medium.activeSlot_of_ne log.slot_lt (fun _ => h.inTurn) fun hlt => ?_
  rw [Medium.load_congr (h.ahead _ (Nat.lt_succ_self _)), h.number_eq, ← UInt16.ofNat_one,
    ← UInt16.ofNat_add]
  exact hnext hlt

/-- A page ahead that has the next number is taken for the successor. -/
theorem Climbs.lt_activeSlot (h : Climbs base log) (hlt : log.page.slot + 1 < g.pages)
    (hnext : (Page.load base (log.page.slot + 1)).number = UInt16.ofNat (log.page.slot + 1)) :
    log.page.slot < log.medium.activeSlot := by
  refine Medium.lt_activeSlot hlt fun slot hslot => ?_
  rcases Nat.lt_or_eq_of_le hslot with hbelow | rfl
  · exact Medium.continuesAt_of_lt (fun _ => h.inTurn) hbelow
  · rw [Medium.continuesAt, Medium.load_congr (h.ahead _ (Nat.lt_succ_self _)), hnext,
      h.holds.load_eq, h.number_eq, UInt16.ofNat_add]
    exact beq_self_eq_true _

theorem Climbs.pushed (h : Climbs base log) (hp : log.Pushed log' words)
    (hwords : Word.erased ∉ words) : Climbs base log' where
  toInStep := h.toInStep.pushed hp hwords
  counts := by
    intro slot hslot
    rw [hp.page_eq] at hslot
    by_cases hactive : slot = log.page.slot
    · rw [Medium.Counted, h.load_pushed hp hwords, hactive]
      exact ⟨(h.holds_pushed hp hwords).filled, (h.counts _ (Nat.le_refl _)).2⟩
    · exact (Medium.counted_congr (hp.read_of_ne h.powered hactive)).mpr (h.counts slot hslot)
  ahead := by
    intro slot hslot offset
    rw [hp.page_eq] at hslot
    rw [hp.read_of_ne h.powered (Nat.ne_of_gt hslot)]
    exact h.ahead slot hslot offset

theorem Climbs.turned (h : Climbs base log) (hlt : log.page.slot + 1 < g.pages) :
    Climbs base log.turned := by
  have hnext := Geometry.next_of_lt hlt
  have hpage : log.turned.page.slot = log.page.slot + 1 := hnext
  refine ⟨h.toInStep.turned, fun slot hslot => ?_, fun slot hslot offset => ?_⟩
  · rw [hpage] at hslot
    by_cases hlast : slot = log.page.slot + 1
    · have hslot' : log.rotatedPage.slot = log.page.slot + 1 := hnext
      have hnumber : log.rotatedPage.number = UInt16.ofNat log.rotatedPage.slot := by
        rw [hslot', UInt16.ofNat_add, ← h.number_eq]
        rfl
      rw [hlast, ← hslot']
      exact Medium.counted_of_holds h.holds_turned hnumber
    · have hread := h.read_turned (show slot ≠ g.next log.page.slot by omega)
      exact (Medium.counted_congr hread).mpr (h.counts slot (by omega))
  · rw [hpage] at hslot
    rw [h.read_turned (show slot ≠ g.next log.page.slot by omega)]
    exact h.ahead slot (by omega) offset

/-- In the last slot the log has been around the ring. -/
theorem Climbs.onRing (h : Climbs base log) (hlast : log.page.slot + 1 = g.pages)
    (hpages : g.pages < 65536) : log.OnRing :=
  .of_fullRing h.toInStep ⟨log.slot_lt, h.holds.load_eq, fun _ hslot => h.inTurn (by omega)⟩ hpages


/-! ## Recording behind an erasure -/

/-- The operations only add to the log, and none of them writes an erased word. -/
def OnlyRecords (g : Geometry) (operations : List (Instant × Operation)) : Prop :=
  ∀ operation ∈ operations, (Action.perform operation.1 operation.2).Regular g ∧
    (Action.perform operation.1 operation.2).isRecording

instance (g : Geometry) (operations : List (Instant × Operation)) :
    Decidable (OnlyRecords g operations) :=
  inferInstanceAs (Decidable (∀ _ ∈ _, _))

/-- Whatever is recorded, the next boot goes on where the log is then. -/
def Endures (log : Log g) : Prop :=
  ∀ operations, OnlyRecords g operations → ∀ config now, config.Fits g →
    (log.run operations).Resumes config now

/-- There is something to record behind which the next boot leaves the log and goes on with a page
of the old medium. -/
def FallsBack (old : Medium g) (log : Log g) : Prop :=
  ∃ operations, OnlyRecords g operations ∧ ∀ config now, config.Fits g →
    ∃ log', boot (log.run operations).chip config now = .ok log' ∧
      (log.run operations).page.slot < log'.page.slot ∧
      log'.page = Page.load old log'.page.slot

theorem perform_climbs (hpages : g.pages < 65536) {now : Instant} {operation : Operation}
    (hregular : (Action.perform now operation).Regular g)
    (hrecording : (Action.perform now operation).isRecording)
    (h : Climbs base log ∨ log.OnRing) :
    Climbs base (log.perform now operation) ∨ (log.perform now operation).OnRing := by
  have hwords := log.erased_not_mem_written hregular
  have hpushed := log.pushed_perform now operation
  rcases h with hclimbs | hring
  · cases operation with
    | append word => exact .inl (hclimbs.pushed hpushed hwords)
    | anchor => exact .inl (hclimbs.pushed hpushed hwords)
    | rotate =>
      by_cases hlast : log.page.slot + 1 = g.pages
      · exact .inr ((hclimbs.onRing hlast hpages).perform hpages hregular)
      · have hslot := log.slot_lt
        exact .inl ((hclimbs.turned (by omega)).pushed hpushed hwords)
    | eraseAll => cases hrecording
  · exact .inr (hring.perform hpages hregular)

theorem run_induction {P : Log g → Prop} {operations : List (Instant × Operation)}
    (hoperations : OnlyRecords g operations) (hstart : P log)
    (hperform : ∀ (log : Log g) now operation, (Action.perform now operation).Regular g →
      (Action.perform now operation).isRecording → P log → P (log.perform now operation)) :
    P (log.run operations) := by
  induction operations generalizing log with
  | nil => exact hstart
  | cons operation rest ih =>
    obtain ⟨hregular, hrecording⟩ := hoperations operation List.mem_cons_self
    exact ih (fun other hother => hoperations other (List.mem_cons_of_mem _ hother))
      (hperform log _ _ hregular hrecording hstart)

theorem OnRing.endures (h : log.OnRing) (hpages : g.pages < 65536) : log.Endures := by
  intro operations hoperations config now hfits
  have hring := run_induction hoperations h
    fun _ _ _ hregular _ hring => hring.perform hpages hregular
  exact hring.resumes hfits now

theorem Climbs.endures (h : Climbs base log) (hpages : g.pages < 65536)
    (hbase : ∀ slot < g.pages, slot ≠ 0 → (Page.load base slot).number ≠ UInt16.ofNat slot) :
    log.Endures := by
  intro operations hoperations config now hfits
  have hrun : Climbs base (log.run operations) ∨ (log.run operations).OnRing :=
    run_induction (P := fun log => Climbs base log ∨ log.OnRing) hoperations (.inl h)
      fun _ _ _ => perform_climbs hpages
  rcases hrun with hclimbs | hring
  · exact hclimbs.resumes (fun hlt => hbase _ hlt (Nat.succ_ne_zero _)) hfits now
  · exact hring.resumes hfits now

theorem Climbs.run_rotations (h : Climbs base log) (now : Instant) {count : Nat}
    (hcount : log.page.slot + count < g.pages) :
    Climbs base (log.run (.replicate count (now, .rotate))) ∧
      (log.run (.replicate count (now, .rotate))).page.slot = log.page.slot + count := by
  induction count with
  | zero => exact ⟨h, rfl⟩
  | succ count ih =>
    obtain ⟨hclimbs, hslot⟩ := ih (by omega)
    have hrun : log.run (.replicate (count + 1) (now, .rotate)) =
        (log.run (.replicate count (now, .rotate))).rotate now := by
      rw [List.replicate_succ', run_append]
      rfl
    rw [hrun]
    generalize log.run (.replicate count (now, .rotate)) = climbed at hclimbs hslot ⊢
    have hlt : climbed.page.slot + 1 < g.pages := by omega
    refine ⟨(hclimbs.turned hlt).pushed (climbed.pushed_rotate now) (erased_not_mem_anchor now), ?_⟩
    rw [(climbed.pushed_rotate now).page_eq]
    have hnext : climbed.turned.page.slot = climbed.page.slot + 1 := Geometry.next_of_lt hlt
    omega

/-- A page ahead with the number of its slot is taken for the successor by a boot as soon as the
slot before it is written. -/
theorem Climbs.boot_ahead (h : Climbs base log) (hlt : log.page.slot + 1 < g.pages)
    (hnext : (Page.load base (log.page.slot + 1)).number = UInt16.ofNat (log.page.slot + 1))
    (hfilled : ∀ slot, log.page.slot < slot → slot < g.pages → base.isErased slot = false)
    {config : Config} (hfits : config.Fits g) (now : Instant) :
    ∃ log', boot log.chip config now = .ok log' ∧ log.page.slot < log'.page.slot ∧
      log'.page = Page.load base log'.page.slot := by
  obtain ⟨log', hboot, hpushed⟩ := boot_ok log.chip hfits.accepted now
  have hahead := h.lt_activeSlot hlt hnext
  have hactive := log.medium.activeSlot_lt log.pages_pos
  have hread := h.ahead _ hahead
  have hpage : log'.page = Page.load base log.medium.activeSlot := by
    rw [hpushed.page_eq, found_of_formatted h.formatted, (recover_spec ..).1, recoveredPage,
      Medium.isErased_congr hread, hfilled _ hahead hactive, if_neg Bool.false_ne_true,
      Medium.load_congr hread]
  have hslot : log'.page.slot = log.medium.activeSlot := congrArg Page.slot hpage
  exact ⟨log', hboot, hslot ▸ hahead, hslot ▸ hpage⟩


theorem FallsBack.not_endures {old : Medium g} (h : FallsBack old log) {config : Config}
    (hfits : config.Fits g) : ¬log.Endures := by
  intro hendures
  obtain ⟨operations, hoperations, hback⟩ := h
  obtain ⟨log', hboot, hslot, -⟩ := hback config ⟨0⟩ hfits
  obtain ⟨log'', hboot', hpage, -⟩ := hendures operations hoperations config ⟨0⟩ hfits
  rw [hboot] at hboot'
  cases hboot'
  rw [hpage] at hslot
  exact Nat.lt_irrefl _ hslot

/-! ## The cuts of an erasure -/

/-- What an erasure leaves on the medium that the power lasts for some calls of. -/
def remains (log : Log g) (now : Instant) (count : Nat) : Medium g :=
  log.medium.applyAll ((log.calls now .eraseAll).take count)

/-- A page from before the erasure is left, and its number is that of its slot. -/
def Lingers (log : Log g) (count slot : Nat) : Prop :=
  count ≤ 2 * slot ∧ slot < g.pages ∧ (Page.load log.medium slot).number = UInt16.ofNat slot

theorem remains_of_le (now : Instant) {count : Nat} (hcount : count ≤ 2 * g.pages) :
    log.remains now count =
      log.medium.applyAll ((formatCalls g log.config.headerSize).take count) := by
  rw [remains, calls, List.take_append_of_le_length]
  rw [length_formatCalls]
  exact hcount

theorem remains_of_ge (hpowered : log.chip.supply = none) (now : Instant) (count : Nat) :
    log.remains now (2 * g.pages + count) =
      log.cleared.medium.applyAll (Page.recordCalls g (Page.initial g log.config.headerSize 0) 0
        ([anchorWord now].take count)) := by
  rw [remains, calls, ← length_formatCalls log.config.headerSize, List.take_length_add_append,
    Medium.applyAll_append, Page.take_recordCalls, medium, medium, chip_cleared,
    Chip.medium_performAll_powered hpowered]

theorem holds_remains (log : Log g) (now : Instant) {count slot : Nat}
    (hcount : count ≤ 2 * g.pages) (hslot : slot < g.pages) (hle : 2 * slot + 2 ≤ count) :
    (Page.initial g log.config.headerSize slot).Holds (log.remains now count) [] := by
  rw [remains_of_le now hcount]
  exact Medium.holds_formatCalls log.medium log.fits.headerSize_pos log.fits.headerSize_lt hle hslot

theorem read_remains (now : Instant) {count slot : Nat} (hcount : count ≤ 2 * g.pages)
    (hslot : slot < g.pages) (hle : count ≤ 2 * slot) (offset : Nat) :
    (log.remains now count).read slot offset = log.medium.read slot offset := by
  rw [remains_of_le now hcount]
  exact Medium.read_formatCalls hle hslot offset

theorem number_remains_iff (log : Log g) (hpages : g.pages < 65536) (now : Instant)
    {count slot : Nat} (hcount : count ≤ 2 * g.pages) (hslot : slot < g.pages) (hne : slot ≠ 0) :
    (Page.load (log.remains now count) slot).number = UInt16.ofNat slot ↔
      log.Lingers count slot := by
  rcases Nat.lt_trichotomy count (2 * slot + 1) with hlt | rfl | hgt
  · have hle : count ≤ 2 * slot := Nat.le_of_lt_succ hlt
    rw [Medium.load_congr (read_remains now hcount hslot hle)]
    exact ⟨fun h => ⟨hle, hslot, h⟩, fun h => h.2.2⟩
  · rw [remains_of_le now hcount,
      Medium.number_load_of_isErased (Medium.isErased_formatCalls hslot)]
    refine iff_of_false (fun h => ?_) fun h => absurd h.1 (Nat.not_succ_le_self _)
    have hnat := congrArg UInt16.toNat h
    rw [UInt16.toNat_ofNat'] at hnat
    simp only [UInt16.reduceToNat] at hnat
    omega
  · have hload := (log.holds_remains now hcount hslot hgt).load_eq
    have hslot' : (Page.initial g log.config.headerSize slot).slot = slot := rfl
    rw [hslot'] at hload
    rw [hload]
    refine iff_of_false (Page.number_initial_ne hne hslot hpages) fun h => ?_
    have hle := h.1
    omega

/-- An erasure that the power lasts for some calls of, and the boot behind it. -/
def cutErasure (count : Nat) (now : Instant) (config : Config) (now' : Instant) : List Event :=
  [⟨.perform now .eraseAll, some count⟩, ⟨.boot config now', none⟩]

/-- The power lasts for the header of slot zero only, which goes with the page behind it. -/
def Unbroken (log : Log g) (count : Nat) : Prop :=
  count = 2 ∧ (Page.load log.medium 1).number = 1

instance (log : Log g) (count : Nat) : Decidable (log.Unbroken count) :=
  inferInstanceAs (Decidable (_ ∧ _))

/-- The boot begins again in slot zero, and an old page ahead has the number of its slot. -/
def Endangered (log : Log g) (count : Nat) : Prop :=
  2 ≤ count ∧ ¬log.Unbroken count ∧ ∃ slot, log.Lingers count slot

/-- Where a log goes on behind a cut erasure: with an old page if nothing was erased or if that goes
unnoticed, and else with page zero. -/
def Reopened (log log' : Log g) (count : Nat) : Prop :=
  if count = 0 ∨ log.Unbroken count then log'.page = Page.load log.medium log'.page.slot
  else log'.page.slot = 0 ∧ log'.page.number = 0

variable {chip : Chip g} {config : Config} {now now' : Instant} {count : Nat}

theorem InStep.run_cutErasure (h : log.InStep) (count : Nat) (now : Instant)
    (hfits : config.Fits g) (now' : Instant) :
    ∃ chip : Chip g, ∃ log', chip.supply = none ∧ chip.medium = log.remains now count ∧
      (Device.running log).run (cutErasure count now config now') = .running log' ∧
      (found chip config hfits.accepted).Pushed log' [anchorWord now'] := by
  have haction : (Action.perform now .eraseAll).Regular g := trivial
  exact h.run_cut haction count hfits now'

/-- A boot on a full ring goes on with its page. -/
theorem found_of_fullRing {active : Page} (hpowered : chip.supply = none)
    (hfull : chip.medium.FullRing active) (hfits : config.Fits g) (hpages : g.pages < 65536) :
    (found chip config hfits.accepted).OnRing ∧
      (found chip config hfits.accepted).page = active := by
  have hpos := pages_pos_of_accepted hfits.accepted
  have hformatted := (hfull.inTurn 0 hpos).1.isUnformatted_eq
  have hactive := hfull.activeSlot_eq hpages
  rw [found_of_formatted hformatted]
  exact ⟨(onRing_recover hpowered hfull.ring hformatted hfits hpages).1,
    (recover_of_activeSlot hpowered hfull.ring hfits hactive).1⟩

/-- If the cut leaves a full ring, the log that is opened is on it. -/
theorem InStep.cutErasure_of_fullRing (h : log.InStep) (hpages : g.pages < 65536) {active : Page}
    (hfull : (log.remains now count).FullRing active) (hfits : config.Fits g) :
    ∃ log', (Device.running log).run (cutErasure count now config now') = .running log' ∧
      log'.OnRing ∧ log'.page = active := by
  obtain ⟨chip, log', hsupply, hmedium, hrun, hpushed⟩ := h.run_cutErasure count now hfits now'
  obtain ⟨hring, hpage⟩ := found_of_fullRing hsupply (hmedium ▸ hfull) hfits hpages
  exact ⟨log', hrun, hring.pushed hpushed (erased_not_mem_anchor now'), hpushed.page_eq.trans hpage⟩

/-- The power fails behind the erasure of slot zero: the boot formats the medium. -/
theorem InStep.cutErasure_one (h : log.InStep) (hpages : g.pages < 65536)
    (hfits : config.Fits g) :
    ∃ log', (Device.running log).run (cutErasure 1 now config now') = .running log' ∧
      log'.OnRing ∧ log'.page.slot = 0 ∧ log'.page.number = 0 := by
  obtain ⟨chip, log', hsupply, hmedium, hrun, hpushed⟩ := h.run_cutErasure 1 now hfits now'
  have hunformatted : chip.medium.isUnformatted := by
    rw [hmedium, remains_of_le now (by have := log.two_le_pages; omega)]
    exact Medium.isUnformatted_of_isErased (Medium.isErased_formatCalls log.pages_pos)
  obtain ⟨hstep, hfull, hpage, -⟩ := fullRing_recover_format hsupply hfits hpages
    (found_of_unformatted hunformatted hfits.accepted)
  refine ⟨log', hrun, ?_, ?_⟩
  · exact (OnRing.of_fullRing hstep hfull hpages).pushed hpushed (erased_not_mem_anchor now')
  · rw [hpushed.page_eq, hpage]
    exact ⟨rfl, rfl⟩

/-- The power lasts for the format: it leaves a fresh ring. -/
theorem InStep.fullRing_remains (h : log.InStep) (now : Instant) (hcount : 2 * g.pages ≤ count) :
    (log.remains now count).FullRing (Page.initial g log.config.headerSize 0) := by
  obtain ⟨more, rfl⟩ := Nat.exists_eq_add_of_le hcount
  have hfull := fullRing_cleared h.powered
  have hholds := holds_cleared h.powered log.pages_pos
  rw [page_cleared h.powered] at hfull
  rw [remains_of_ge h.powered]
  exact hfull.recordCalls hholds fun hmem =>
    erased_not_mem_anchor now (List.mem_of_mem_take hmem)

theorem fullRing_remains_of_unbroken (log : Log g) (now : Instant)
    (hfull : log.medium.FullRing log.page) (hunbroken : log.Unbroken count) :
    ∃ slot, slot ≠ 0 ∧ slot < g.pages ∧
      (log.remains now count).FullRing (Page.load log.medium slot) := by
  obtain ⟨rfl, hone⟩ := hunbroken
  have htwo := log.two_le_pages
  have hholds := log.holds_remains now (by omega) log.pages_pos (Nat.le_refl _)
  refine hfull.restart htwo hone (fun slot hslot hne => ?_) (Medium.counted_of_holds hholds rfl)
  exact read_remains now (by omega) hslot (by omega)

/-- Otherwise the log opened begins again in slot zero, with what is left ahead of it. -/
theorem OnRing.cutErasure_climbs (h : log.OnRing) (hpages : g.pages < 65536)
    (hfits : config.Fits g) (htwo : 2 ≤ count) (hcount : count ≤ 2 * g.pages)
    (hbroken : ¬log.Unbroken count) :
    ∃ log', (Device.running log).run (cutErasure count now config now') = .running log' ∧
      Climbs (log.remains now count) log' ∧ log'.page.slot = 0 ∧ log'.page.number = 0 := by
  obtain ⟨chip, log', hsupply, hmedium, hrun, hpushed⟩ :=
    h.toInStep.run_cutErasure count now hfits now'
  have hholds := log.holds_remains now hcount log.pages_pos htwo
  have hnumber := log.number_remains_iff hpages now hcount log.two_le_pages Nat.one_ne_zero
  rw [← hmedium] at hholds hnumber ⊢
  have hload : Page.load chip.medium 0 = Page.initial g log.config.headerSize 0 := hholds.load_eq
  have hfilled : chip.medium.Filled 0 := hholds.filled
  have hactive : chip.medium.activeSlot = 0 := by
    refine Medium.activeSlot_eq log.pages_pos (fun slot hslot => absurd hslot (Nat.not_lt_zero _))
      fun _ => ?_
    rw [Medium.continuesAt, hload, beq_eq_false_iff_ne]
    intro heq
    obtain ⟨hle, -, hone⟩ := hnumber.mp heq.symm
    exact hbroken ⟨Nat.le_antisymm hle htwo, hone⟩
  have hsound : chip.medium.Sound := by
    have haction : (Action.perform now .eraseAll).Regular g := trivial
    rw [hmedium]
    exact h.ring.sound.applyAll ((h.toInStep.allowsAll_calls haction).take count)
  obtain ⟨hpage, hsame⟩ := recover_of_filled hsupply hfits hactive hfilled.not_isErased
  rw [hload] at hpage
  rw [found_of_formatted hfilled.isUnformatted_eq] at hpushed
  have hclimbs : Climbs chip.medium (recover chip config hfits.accepted) := by
    refine ⟨inStep_recover hsupply hsound hfits, fun slot hslot => ?_, fun slot _ offset => ?_⟩
    · rw [hpage] at hslot
      rw [hsame, Nat.le_zero.mp hslot]
      exact Medium.counted_of_holds hholds rfl
    · rw [hsame]
  refine ⟨log', hrun, hclimbs.pushed hpushed (erased_not_mem_anchor now'), ?_⟩
  rw [hpushed.page_eq, hpage]
  exact ⟨rfl, rfl⟩

/-- An old page whose number is that of its slot waits for the log to come to the slot before. -/
theorem Climbs.fallsBack {log' : Log g} (h : Climbs (log.remains now count) log')
    (hstart : log'.page.slot = 0) (hfull : log.medium.FullRing log.page) (hpages : g.pages < 65536)
    (htwo : 2 ≤ count) (hcount : count ≤ 2 * g.pages) {slot : Nat}
    (hlingers : log.Lingers count slot) : log'.FallsBack log.medium := by
  have hle := hlingers.1
  have hslot := hlingers.2.1
  obtain ⟨rotations, rfl⟩ := Nat.exists_eq_add_of_le' (show 1 ≤ slot by omega)
  have hread : ∀ slot, rotations < slot → slot < g.pages → ∀ offset,
      (log.remains now count).read slot offset = log.medium.read slot offset :=
    fun slot hlt hslot => read_remains now hcount hslot (by omega)
  have hrotations : OnlyRecords g (.replicate rotations (⟨0⟩, .rotate)) := by
    intro operation hoperation
    rw [List.eq_of_mem_replicate hoperation]
    exact ⟨trivial, rfl⟩
  have hnumber :=
    (log.number_remains_iff hpages now hcount hslot (Nat.succ_ne_zero _)).mpr hlingers
  have hfilled : ∀ slot, rotations < slot → slot < g.pages →
      (log.remains now count).isErased slot = false := by
    intro slot hlt hslot
    rw [Medium.isErased_congr (hread slot hlt hslot)]
    exact (hfull.inTurn slot hslot).1.not_isErased
  have hroom : log'.page.slot + rotations < g.pages := by omega
  obtain ⟨hclimbs, hreached⟩ := h.run_rotations ⟨0⟩ hroom
  rw [hstart, Nat.zero_add] at hreached
  refine ⟨_, hrotations, fun config now hconfig => ?_⟩
  generalize log'.run _ = climbed at hclimbs hreached ⊢
  subst hreached
  obtain ⟨reopened, hboot, hahead, hpage⟩ := hclimbs.boot_ahead hslot hnumber hfilled hconfig now
  rw [Medium.load_congr (hread _ hahead reopened.slot_lt)] at hpage
  exact ⟨reopened, hboot, hahead, hpage⟩

/-- The log opened is on its ring unless the cut lies between the header of slot zero and the end
of the format. -/
theorem OnRing.cutErasure_onRing (h : log.OnRing) (hfull : log.medium.FullRing log.page)
    (hpages : g.pages < 65536) (hfits : config.Fits g)
    (hcount : count < 2 ∨ log.Unbroken count ∨ 2 * g.pages < count) :
    ∃ log', (Device.running log).run (cutErasure count now config now') = .running log' ∧
      log.Reopened log' count ∧ log'.OnRing := by
  have hstep := h.toInStep
  have htwo := log.two_le_pages
  rcases hcount with hfew | hunbroken | hmany
  · match count with
    | 0 =>
      have hsame : (log.remains now 0).FullRing log.page := hfull
      obtain ⟨log', hrun, hring, hpage⟩ := hstep.cutErasure_of_fullRing hpages hsame hfits
      refine ⟨log', hrun, ?_, hring⟩
      rw [Reopened, if_pos (.inl rfl), hpage, hfull.load_eq]
    | 1 =>
      obtain ⟨log', hrun, hring, hpage⟩ := hstep.cutErasure_one hpages hfits
      refine ⟨log', hrun, ?_, hring⟩
      rw [Reopened, if_neg]
      · exact hpage
      · rintro (hzero | hunbroken)
        · cases hzero
        · cases hunbroken.1
  · obtain ⟨slot, -, -, hfull'⟩ := log.fullRing_remains_of_unbroken now hfull hunbroken
    obtain ⟨log', hrun, hring, hpage⟩ := hstep.cutErasure_of_fullRing hpages hfull' hfits
    refine ⟨log', hrun, ?_, hring⟩
    rw [Reopened, if_pos (.inr hunbroken), hpage]
    rfl
  · have hfull' := hstep.fullRing_remains now (Nat.le_of_lt hmany)
    obtain ⟨log', hrun, hring, hpage⟩ := hstep.cutErasure_of_fullRing hpages hfull' hfits
    refine ⟨log', hrun, ?_, hring⟩
    rw [Reopened, if_neg, hpage]
    · exact ⟨rfl, rfl⟩
    · rintro (hzero | hunbroken)
      · omega
      · have htwice := hunbroken.1
        omega

/-- What becomes of a log that is being erased when the power fails. -/
theorem OnRing.cutErasure (h : log.OnRing) (hfull : log.medium.FullRing log.page)
    (hpages : g.pages < 65536) (hfits : config.Fits g) (count : Nat) (now now' : Instant) :
    ∃ log', (Device.running log).run (Log.cutErasure count now config now') = .running log' ∧
      log.Reopened log' count ∧ (¬log.Endangered count → log'.Endures) ∧
      (log.Endangered count → log'.FallsBack log.medium) := by
  by_cases hcount : count < 2 ∨ log.Unbroken count ∨ 2 * g.pages < count
  · obtain ⟨log', hrun, hpage, hring⟩ := h.cutErasure_onRing hfull hpages hfits hcount
    refine ⟨log', hrun, hpage, fun _ => hring.endures hpages, fun hendangered => ?_⟩
    obtain ⟨htwo, hbroken, slot, hle, hslot, -⟩ := hendangered
    rcases hcount with hfew | hunbroken | hmany
    · omega
    · exact absurd hunbroken hbroken
    · omega
  · rw [not_or, not_or, Nat.not_lt, Nat.not_lt] at hcount
    obtain ⟨htwo, hbroken, hle⟩ := hcount
    obtain ⟨log', hrun, hclimbs, hslot, hnumber⟩ :=
      h.cutErasure_climbs hpages hfits htwo hle hbroken
    refine ⟨log', hrun, ?_, fun hsafe => ?_, fun hendangered => ?_⟩
    · rw [Reopened, if_neg]
      · exact ⟨hslot, hnumber⟩
      · exact fun hor => hor.elim (fun hzero => by omega) hbroken
    · refine hclimbs.endures hpages fun slot hlt hne heq => hsafe ⟨htwo, hbroken, slot, ?_⟩
      exact (log.number_remains_iff hpages _ hle hlt hne).mp heq
    · obtain ⟨-, -, slot, hlingers⟩ := hendangered
      exact hclimbs.fallsBack hslot hfull hpages htwo hle hlingers

end Log

namespace Device

/-- An erasure that the power fails in leaves a log that the next boots find again, whatever is
recorded in between, unless an old page is left whose number is that of its slot. Such a page takes
over from the log as soon as the slot before it is written, but for one case: the power fails just
behind the header of slot zero and slot one has number one. Then the log goes on as if it had not
been erased. -/
theorem endures_iff (hpages : g.pages < 65536) {actions : List Action}
    (hactions : ∀ action ∈ actions, action.Regular g) {log : Log g}
    (hlog : (new g).actAll actions = running log) {config : Config} (hfits : config.Fits g)
    (count : Nat) (now now' : Instant) :
    ∃ log', (running log).run (Log.cutErasure count now config now') = running log' ∧
      log.Reopened log' count ∧ (log'.Endures ↔ ¬log.Endangered count) ∧
      (log.Endangered count → log'.FallsBack log.medium) := by
  obtain ⟨history, hrecalls, -⟩ := recalls_of_running hpages hactions hlog
  obtain ⟨log', hrun, hpage, hendures, hback⟩ :=
    hrecalls.shows.onRing.cutErasure hrecalls.shows.full hpages hfits count now now'
  refine ⟨log', hrun, hpage, ⟨fun h hendangered => ?_, hendures⟩, hback⟩
  exact (hback hendangered).not_endures hfits h

/-- Behind two rotations of three pages, page two is in slot two. -/
theorem endures_iff_two_rotations :
    let actions : List Action := [.boot ⟨0, 1⟩ ⟨0⟩, .perform ⟨0⟩ .rotate, .perform ⟨0⟩ .rotate]
    (∀ action ∈ actions, action.Regular ⟨3, 4⟩) ∧ (⟨0, 1⟩ : Config).Fits ⟨3, 4⟩ ∧
      ∃ log, (new ⟨3, 4⟩).actAll actions = running log ∧
        (∃ log', (running log).run (Log.cutErasure 4 ⟨0⟩ ⟨0, 1⟩ ⟨0⟩) = running log' ∧
          log'.FallsBack log.medium) ∧
        ∃ log', (running log).run (Log.cutErasure 5 ⟨0⟩ ⟨0, 1⟩ ⟨0⟩) = running log' ∧
          log'.Endures := by
  intro actions
  obtain ⟨log, hlog, hold⟩ : ∃ log, (new ⟨3, 4⟩).actAll actions = running log ∧
      (Page.load log.medium 2).number = 2 := ⟨_, rfl, by decide +kernel⟩
  have hactions : ∀ action ∈ actions, action.Regular ⟨3, 4⟩ := by decide
  have hfits : (⟨0, 1⟩ : Config).Fits ⟨3, 4⟩ := by decide
  have hunbroken : ∀ count, count ≠ 2 → ¬log.Unbroken count := fun count hne h => hne h.1
  obtain ⟨log', hrun, -, -, hback⟩ := endures_iff (by decide) hactions hlog hfits 4 ⟨0⟩ ⟨0⟩
  obtain ⟨log'', hrun', -, hendures, -⟩ := endures_iff (by decide) hactions hlog hfits 5 ⟨0⟩ ⟨0⟩
  refine ⟨hactions, hfits, log, hlog, ⟨log', hrun, hback ?_⟩, log'', hrun', hendures.mpr ?_⟩
  · exact ⟨by decide, hunbroken 4 (by decide), 2, Nat.le_refl _, by decide, hold⟩
  · rintro ⟨-, -, slot, hle, hlt, -⟩
    dsimp only at hlt
    omega

/-- On three pages, four rotations reach page four in slot one. An erasure of two calls leaves page
two in slot two. The boot begins again in slot zero, and behind the next rotation, to page one in
slot one, a boot takes page two for the successor. -/
theorem not_endures_cut :
    let rotation : Action := .perform (.ofSeconds 100) .rotate
    let actions : List Action := .boot ⟨2, 1⟩ (.ofSeconds 100) :: .replicate 4 rotation
    (∀ action ∈ actions, action.Regular ⟨3, 8⟩) ∧
      ∃ log log' reopened, (new ⟨3, 8⟩).actAll actions = running log ∧
        (running log).run (Log.cutErasure 2 (.ofSeconds 100) ⟨2, 1⟩ (.ofSeconds 101)) =
          running log' ∧
        (log'.rotate (.ofSeconds 101)).page = ⟨1, 1, 1⟩ ∧
        Log.boot (log'.rotate (.ofSeconds 101)).chip ⟨2, 1⟩ (.ofSeconds 102) = .ok reopened ∧
        reopened.page = ⟨2, 2, 1⟩ ∧ reopened.page = Page.load log.medium 2 ∧ ¬log'.Endures := by
  intro rotation actions
  obtain ⟨log, hlog, hold, hpages⟩ : ∃ log, (new ⟨3, 8⟩).actAll actions = running log ∧
      Page.load log.medium 2 = ⟨2, 2, 1⟩ ∧
      (match (running log).run (Log.cutErasure 2 (.ofSeconds 100) ⟨2, 1⟩ (.ofSeconds 101)) with
      | running log' => (log'.rotate (.ofSeconds 101)).page ::
        match Log.boot (log'.rotate (.ofSeconds 101)).chip ⟨2, 1⟩ (.ofSeconds 102) with
        | .ok reopened => [reopened.page]
        | .error _ => []
      | off _ => []) = [⟨1, 1, 1⟩, ⟨2, 2, 1⟩] := ⟨_, rfl, by decide +kernel, by decide +kernel⟩
  split at hpages
  · rename_i log' hrun
    split at hpages
    · rename_i reopened hboot
      obtain ⟨hrotated, hreopened⟩ := List.cons.inj hpages
      have hpage := (List.cons.inj hreopened).1
      refine ⟨by decide, log, log', reopened, hlog, hrun, hrotated, hboot, hpage,
        hpage.trans hold.symm, fun hendures => ?_⟩
      obtain ⟨log'', hboot', hsame, -⟩ :=
        hendures [(.ofSeconds 101, .rotate)] (by decide) ⟨2, 1⟩ (.ofSeconds 102) (by decide)
      cases hboot.symm.trans hboot'
      have hrotated' : (log'.run [(.ofSeconds 101, .rotate)]).page = ⟨1, 1, 1⟩ := hrotated
      rw [hpage, hrotated'] at hsame
      exact absurd hsame (by decide)
    · cases (List.cons.inj hpages).2
  · cases hpages

end Device

end RingLog
