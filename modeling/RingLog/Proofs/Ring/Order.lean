import RingLog.Proofs.Ring.Discipline
import RingLog.Ring.Numbering

/-!
# The order of the ring

While page `active` is being written, the slot that lies `k` steps before its slot holds the page
written `k` rotations earlier: its number is `k` less (`Medium.InTurn`). That goes all the way
around (`Medium.FullRing`), except that the slot behind the active one may be erased by a rotation
that the power did not last for (`Medium.Ring`).

The scan for the active page finds it again, whatever its number is: on fewer than 2^16 pages the
number after the newest is not that of the oldest. Only an erased slot, which reads as number
0xffff, can pass for the successor of the active page, and then the scan stops at that slot.

Main statements: `Medium.FullRing.activeSlot_eq`, `Medium.Ring.activeSlot_of_isErased`,
`Medium.Ring.advance`.
-/

namespace RingLog

variable {g : Geometry}

namespace Geometry

theorem distance_self (g : Geometry) (slot : Nat) : g.distance slot slot = 0 := by
  rw [distance, if_pos (Nat.le_refl _), Nat.sub_self]

theorem distance_of_le {slot target : Nat} (h : slot ≤ target) :
    g.distance slot target = target - slot :=
  if_pos h

theorem distance_of_lt {slot target : Nat} (h : target < slot) :
    g.distance slot target = target + g.pages - slot :=
  if_neg (Nat.not_le.mpr h)

theorem next_of_lt {slot : Nat} (h : slot + 1 < g.pages) : g.next slot = slot + 1 :=
  if_pos h

theorem next_of_last {slot : Nat} (h : slot + 1 = g.pages) : g.next slot = 0 := by
  rw [next, if_neg (by omega), if_pos (by omega)]

theorem next_eq_mod {slot : Nat} (h : slot < g.pages) : g.next slot = (slot + 1) % g.pages := by
  by_cases hlast : slot + 1 = g.pages
  · rw [next_of_last hlast, hlast, Nat.mod_self]
  · rw [next_of_lt (by omega), Nat.mod_eq_of_lt (by omega)]

theorem distance_sub_mod {target count : Nat} (htarget : target < g.pages)
    (hcount : count < g.pages) :
    g.distance ((target + g.pages - count) % g.pages) target = count := by
  by_cases hle : count ≤ target
  · have hslot : (target + g.pages - count) % g.pages = target - count := by
      rw [show target + g.pages - count = target - count + g.pages by omega, Nat.add_mod_right]
      exact Nat.mod_eq_of_lt (by omega)
    rw [hslot, distance_of_le (Nat.sub_le _ _)]
    omega
  · rw [Nat.mod_eq_of_lt (by omega), distance_of_lt (by omega)]
    omega

/-- Every other slot is one step further from the next slot. -/
theorem distance_to_next {slot target : Nat} (hslot : slot < g.pages) (htarget : target < g.pages)
    (hne : slot ≠ g.next target) :
    g.distance slot (g.next target) = g.distance slot target + 1 := by
  by_cases hlast : target + 1 = g.pages
  · rw [next_of_last hlast] at hne ⊢
    rw [distance_of_lt (by omega), distance_of_le (by omega)]
    omega
  · rw [next_of_lt (by omega)] at hne ⊢
    by_cases hle : slot ≤ target
    · rw [distance_of_le hle, distance_of_le (by omega)]
      omega
    · rw [distance_of_lt (by omega), distance_of_lt (by omega)]
      omega

theorem distance_next_self {slot : Nat} (h : slot < g.pages) (hpages : 2 ≤ g.pages) :
    g.distance (g.next slot) slot = g.pages - 1 := by
  by_cases hlast : slot + 1 = g.pages
  · rw [next_of_last hlast, distance_of_le (Nat.zero_le _)]
    omega
  · rw [next_of_lt (by omega), distance_of_lt (Nat.lt_succ_self _)]
    omega

theorem next_ne_self {slot : Nat} (h : slot < g.pages) (hpages : 2 ≤ g.pages) :
    g.next slot ≠ slot := by
  intro heq
  have hdistance := distance_next_self h hpages
  rw [heq, distance_self] at hdistance
  omega

end Geometry

/-! ## Numbers that wrap -/

theorem sub_succ_add_one (number : UInt16) (k : Nat) :
    number - UInt16.ofNat (k + 1) + 1 = number - UInt16.ofNat k := by
  have hnumber := number.toNat_lt
  rw [← UInt16.toNat_inj]
  simp only [UInt16.toNat_add, UInt16.toNat_sub, UInt16.toNat_ofNat', UInt16.reduceToNat]
  omega

theorem add_one_sub_succ (number : UInt16) (k : Nat) :
    number + 1 - UInt16.ofNat (k + 1) = number - UInt16.ofNat k := by
  have hnumber := number.toNat_lt
  rw [← UInt16.toNat_inj]
  simp only [UInt16.toNat_add, UInt16.toNat_sub, UInt16.toNat_ofNat', UInt16.reduceToNat]
  omega

/-- The numbers of a lap shorter than all numbers do not meet. -/
theorem add_one_ne_sub (number : UInt16) {k : Nat} (h : k + 1 < 65536) :
    number + 1 ≠ number - UInt16.ofNat k := by
  intro heq
  have hnumber := number.toNat_lt
  have hnat := congrArg UInt16.toNat heq
  rw [UInt16.toNat_add, UInt16.toNat_sub, UInt16.toNat_ofNat'] at hnat
  simp only [UInt16.reduceToNat] at hnat
  omega

namespace Medium

/-- The number that a slot's page has when `active` is being written. -/
def numberAt (g : Geometry) (active : Page) (slot : Nat) : UInt16 :=
  active.number - UInt16.ofNat (g.distance slot active.slot)

/-- The slot holds a page with the number of its turn. -/
def InTurn (medium : Medium g) (active : Page) (slot : Nat) : Prop :=
  medium.Filled slot ∧ (Page.load medium slot).number = numberAt g active slot

/-- Every slot holds the page of its turn. -/
structure FullRing (medium : Medium g) (active : Page) : Prop where
  slot_lt : active.slot < g.pages
  load_eq : Page.load medium active.slot = active
  inTurn : ∀ slot < g.pages, medium.InTurn active slot

/-- Every slot holds the page of its turn, but the next one to be written may be erased. -/
structure Ring (medium : Medium g) (active : Page) : Prop where
  slot_lt : active.slot < g.pages
  load_eq : Page.load medium active.slot = active
  inTurn : ∀ slot < g.pages, slot ≠ g.next active.slot → medium.InTurn active slot
  oldest : medium.isErased (g.next active.slot) ∨ medium.InTurn active (g.next active.slot)

variable {medium medium' : Medium g} {active page : Page} {words : List Word}

theorem FullRing.ring (h : medium.FullRing active) : medium.Ring active :=
  ⟨h.slot_lt, h.load_eq, fun slot hslot _ => h.inTurn slot hslot,
    .inr (h.inTurn _ (Geometry.next_lt (Nat.lt_of_le_of_lt (Nat.zero_le _) h.slot_lt)))⟩

theorem Ring.full (h : medium.Ring active) (holdest : medium.InTurn active (g.next active.slot)) :
    medium.FullRing active := by
  refine ⟨h.slot_lt, h.load_eq, fun slot hslot => ?_⟩
  by_cases hnext : slot = g.next active.slot
  · exact hnext ▸ holdest
  · exact h.inTurn slot hslot hnext

theorem Ring.sound (h : medium.Ring active) : medium.Sound := by
  intro slot hslot
  by_cases hnext : slot = g.next active.slot
  · rw [hnext]
    exact h.oldest.imp id And.left
  · exact .inr (h.inTurn slot hslot hnext).1

theorem numberAt_self (g : Geometry) (active : Page) :
    numberAt g active active.slot = active.number := by
  rw [numberAt, Geometry.distance_self]
  exact UInt16.sub_zero _

theorem inTurn_congr {slot : Nat}
    (h : ∀ offset, medium'.read slot offset = medium.read slot offset) :
    medium'.InTurn active slot ↔ medium.InTurn active slot := by
  rw [InTurn, InTurn, filled_congr h, load_congr h]

/-! ## What keeps the order -/

theorem inTurn_recordCalls (hactive : active.Holds medium words) {more : List Word}
    (hmore : Word.erased ∉ more) {slot : Nat} (h : medium.InTurn active slot) :
    (medium.applyAll (Page.recordCalls g active words.length more)).InTurn active slot := by
  by_cases hslot : slot = active.slot
  · have hholds := hactive.applyAll_recordCalls hmore
    rw [hslot]
    refine ⟨hholds.filled, ?_⟩
    rw [hholds.load_eq, numberAt_self]
  · refine (inTurn_congr ?_).mpr h
    refine read_applyAll_of_slot_ne fun call hcall => ?_
    rw [Page.slot_of_mem_recordCalls hcall]
    exact fun heq => hslot heq.symm

theorem Ring.recordCalls (h : medium.Ring active) (hpages : 2 ≤ g.pages)
    (hactive : active.Holds medium words) {more : List Word} (hmore : Word.erased ∉ more) :
    (medium.applyAll (Page.recordCalls g active words.length more)).Ring active := by
  refine ⟨h.slot_lt, (hactive.applyAll_recordCalls hmore).load_eq, ?_, ?_⟩
  · exact fun slot hslot hnext => inTurn_recordCalls hactive hmore (h.inTurn slot hslot hnext)
  · refine h.oldest.imp (fun herased => ?_) (inTurn_recordCalls hactive hmore)
    rw [isErased_congr, herased]
    refine read_applyAll_of_slot_ne fun call hcall => ?_
    rw [Page.slot_of_mem_recordCalls hcall]
    exact (Geometry.next_ne_self h.slot_lt hpages).symm

theorem FullRing.recordCalls (h : medium.FullRing active) (hactive : active.Holds medium words)
    {more : List Word} (hmore : Word.erased ∉ more) :
    (medium.applyAll (Page.recordCalls g active words.length more)).FullRing active :=
  ⟨h.slot_lt, (hactive.applyAll_recordCalls hmore).load_eq,
    fun slot hslot => inTurn_recordCalls hactive hmore (h.inTurn slot hslot)⟩

theorem Ring.erase_oldest (h : medium.Ring active) (hpages : 2 ≤ g.pages) :
    (medium.apply (.erase (g.next active.slot))).Ring active := by
  have hread : ∀ slot, slot ≠ g.next active.slot → ∀ offset,
      (medium.apply (.erase (g.next active.slot))).read slot offset = medium.read slot offset :=
    fun slot hslot => read_apply_of_slot_ne fun heq => hslot heq.symm
  refine ⟨h.slot_lt, ?_, ?_, .inl (isErased_apply_erase _ _)⟩
  · rw [load_congr (hread _ (Geometry.next_ne_self h.slot_lt hpages).symm), h.load_eq]
  · exact fun slot hslot hnext => (inTurn_congr (hread slot hnext)).mpr (h.inTurn slot hslot hnext)

/-- A page with the next number in the next slot completes the ring. -/
theorem Ring.advance (h : medium.Ring active)
    (hread : ∀ slot, slot ≠ g.next active.slot →
      ∀ offset, medium'.read slot offset = medium.read slot offset)
    (hslot : page.slot = g.next active.slot) (hnumber : page.number = active.number + 1)
    (hholds : page.Holds medium' words) : medium'.FullRing page := by
  refine ⟨hholds.fits.slot_lt, hholds.load_eq, fun slot hlt => ?_⟩
  by_cases hnext : slot = g.next active.slot
  · rw [hnext, ← hslot]
    refine ⟨hholds.filled, ?_⟩
    rw [hholds.load_eq, numberAt_self]
  · obtain ⟨hfilled, hnumberAt⟩ := h.inTurn slot hlt hnext
    refine ⟨(filled_congr (hread slot hnext)).mpr hfilled, ?_⟩
    rw [load_congr (hread slot hnext), hnumberAt, numberAt, numberAt, hslot, hnumber,
      Geometry.distance_to_next hlt h.slot_lt hnext, add_one_sub_succ]

/-- A formatted medium holds a ring that ends at slot zero. -/
theorem fullRing_of_initial {headerSize : UInt8} (hpages : 0 < g.pages)
    (h : ∀ slot < g.pages, (Page.initial g headerSize slot).Holds medium []) :
    medium.FullRing (Page.initial g headerSize 0) := by
  refine ⟨hpages, (h 0 hpages).load_eq, fun slot hslot => ⟨(h slot hslot).filled, ?_⟩⟩
  have hload := (h slot hslot).load_eq
  have hslot' : (Page.initial g headerSize slot).slot = slot := rfl
  rw [hslot'] at hload
  rw [hload, numberAt]
  unfold Page.initial
  dsimp only
  split
  · rename_i hzero
    rw [hzero, Geometry.distance_self, if_pos rfl]
    rfl
  · rw [if_pos rfl, Geometry.distance_of_lt (by omega), Nat.zero_add,
      UInt16.ofNat_sub (Nat.le_of_lt hslot), UInt16.zero_sub, UInt16.neg_sub]

/-! ## The scan for the active page -/

theorem activeSlot_eq {slot : Nat} (hslot : slot < g.pages)
    (hrun : ∀ s < slot, medium.continuesAt s) (hbreak : slot + 1 < g.pages →
      medium.continuesAt slot = false) : medium.activeSlot = slot := by
  unfold activeSlot
  by_cases hlast : slot + 1 = g.pages
  · have hnone : (List.range (g.pages - 1)).find? (fun s => !medium.continuesAt s) = none := by
      rw [List.find?_eq_none]
      intro s hs
      rw [hrun s (by have := List.mem_range.mp hs; omega)]
      exact Bool.false_ne_true
    rw [hnone, Option.getD_none]
    omega
  · have hsome :
        (List.range (g.pages - 1)).find? (fun s => !medium.continuesAt s) = some slot := by
      rw [List.find?_range_eq_some]
      refine ⟨?_, List.mem_range.mpr (by omega), fun s hs => ?_⟩
      · rw [hbreak (by omega)]
        rfl
      · rw [hrun s hs]
        rfl
    rw [hsome, Option.getD_some]

theorem activeSlot_congr (h : ∀ slot, Page.load medium' slot = Page.load medium slot) :
    medium'.activeSlot = medium.activeSlot := by
  have hcontinues : ∀ slot, medium'.continuesAt slot = medium.continuesAt slot := by
    intro slot
    rw [continuesAt, continuesAt, h, h]
  rw [activeSlot, activeSlot, funext hcontinues]

theorem continuesAt_of_lt (h : ∀ slot ≤ active.slot, medium.InTurn active slot) {slot : Nat}
    (hslot : slot < active.slot) : medium.continuesAt slot := by
  have hdistance : active.slot - slot = active.slot - (slot + 1) + 1 := by omega
  rw [continuesAt, (h slot (by omega)).2, (h (slot + 1) hslot).2, numberAt, numberAt,
    Geometry.distance_of_le (Nat.le_of_lt hslot), Geometry.distance_of_le hslot, hdistance,
    sub_succ_add_one]
  exact beq_self_eq_true _

/-- The scan ends at the active slot if the slot behind it does not hold the next number. -/
theorem activeSlot_of_ne (hactive : active.slot < g.pages)
    (h : ∀ slot ≤ active.slot, medium.InTurn active slot)
    (hne : active.slot + 1 < g.pages →
      (Page.load medium (active.slot + 1)).number ≠ active.number + 1) :
    medium.activeSlot = active.slot := by
  refine activeSlot_eq hactive (fun slot hslot => continuesAt_of_lt h hslot) fun hlt => ?_
  rw [continuesAt, (h _ (Nat.le_refl _)).2, numberAt_self, beq_eq_false_iff_ne]
  exact (hne hlt).symm

theorem FullRing.activeSlot_eq (h : medium.FullRing active) (hpages : g.pages < 65536) :
    medium.activeSlot = active.slot := by
  have hactive := h.slot_lt
  refine activeSlot_of_ne h.slot_lt (fun slot hslot => h.inTurn slot (by omega)) fun hlt => ?_
  rw [(h.inTurn _ hlt).2, numberAt, Geometry.distance_of_lt (Nat.lt_succ_self _)]
  exact (add_one_ne_sub _ (by omega)).symm

theorem number_load_of_isErased {slot : Nat} (h : medium.isErased slot) :
    (Page.load medium slot).number = 0xffff := by
  rw [Page.load, isErased_iff.mp h]
  rfl

/-- An erased slot behind the active one counts as its successor if that has number 0xffff. -/
theorem Ring.activeSlot_of_isErased (h : medium.Ring active) (hpages : g.pages < 65536)
    (herased : medium.isErased (g.next active.slot)) (hnext : g.next active.slot ≠ 0) :
    medium.activeSlot =
      if active.number + 1 = 0xffff then g.next active.slot else active.slot := by
  have hactive := h.slot_lt
  have hlt : active.slot + 1 < g.pages := by
    refine Nat.lt_of_le_of_ne hactive fun hlast => ?_
    exact hnext (Geometry.next_of_last hlast)
  have hslot : g.next active.slot = active.slot + 1 := Geometry.next_of_lt hlt
  have hinTurn : ∀ slot ≤ active.slot, medium.InTurn active slot :=
    fun slot hle => h.inTurn slot (by omega) (by omega)
  have hnumber := number_load_of_isErased herased
  rw [hslot] at hnumber ⊢
  split
  · rename_i hsuccessor
    refine Medium.activeSlot_eq hlt (fun slot hle => ?_) fun hlt' => ?_
    · by_cases hlast : slot = active.slot
      · rw [hlast, continuesAt, (hinTurn _ (Nat.le_refl _)).2, numberAt_self, hnumber, hsuccessor]
        exact beq_self_eq_true _
      · exact continuesAt_of_lt hinTurn (by omega)
    · -- the number 0xffff is followed by zero, and the oldest page left is two laps' ends away
      have holdest := (h.inTurn (active.slot + 1 + 1) hlt' (by omega)).2
      rw [continuesAt, hnumber, holdest, numberAt, Geometry.distance_of_lt (by omega),
        beq_eq_false_iff_ne, ← hsuccessor]
      have hdistance : active.slot + g.pages - (active.slot + 1 + 1) = g.pages - 2 := by omega
      have hk : g.pages - 1 = g.pages - 2 + 1 := by omega
      rw [hdistance, ← add_one_sub_succ, ← hk]
      exact add_one_ne_sub _ (by omega)
  · rename_i hother
    refine activeSlot_of_ne hactive hinTurn fun _ => ?_
    rw [hnumber]
    exact fun heq => hother heq.symm

/-! ## Formatted media -/

theorem isUnformatted_of_isErased (h : medium.isErased 0) : medium.isUnformatted := by
  rw [isUnformatted, isErased_iff.mp h]
  exact beq_self_eq_true _

theorem isUnformatted_blank (g : Geometry) : (blank g).isUnformatted :=
  isUnformatted_of_isErased (isErased_iff.mpr (read_blank 0))

theorem Filled.isUnformatted_eq (h : medium.Filled 0) : medium.isUnformatted = false := by
  have hheader := h.read_header
  rw [isUnformatted, beq_eq_false_iff_ne]
  intro heq
  exact Header.encode_current_ne_erased _ _ (hheader.symm.trans heq)

end Medium

end RingLog
