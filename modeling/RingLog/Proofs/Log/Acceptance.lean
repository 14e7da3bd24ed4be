import RingLog.Log.Config

/-!
# Which configurations are accepted

Four requirements are checked one after another, and the first that is not met is the fault. The
last one asks for room for header, reserve and one record. Their sum is taken in 64 bits, and a
reserve close to 2^64 goes beyond them. The program then ends, where it should refuse the page as
too small. A program that wraps instead accepts a page that is far too small, or refuses it with a
wrong number of words that it should have.

Main statements: `Config.isExact_iff` and `Config.not_isExact`.
-/

namespace RingLog

namespace Config

variable {config : Config} {overflow : Overflow} {g : Geometry}

/-- The requirements in the order of the checks, each with the fault of a geometry that does not
meet it. The last one asks for `room` words on a page. -/
def requirements (config : Config) (g : Geometry) (room : Nat) : List (Bool × ConfigFault) :=
  [(2 ≤ g.pages, .tooFewPages g.pages),
    (1 ≤ config.headerSize.toNat, .noHeader),
    (g.pageSize ≤ 65536, .pageTooLarge g.pageSize),
    (room ≤ g.pageSize, .pageTooSmall g.pageSize room)]

/-- The fault of the first requirement that is not met. -/
def verdict (config : Config) (g : Geometry) (room : Nat) : Option ConfigFault :=
  ((config.requirements g room).find? fun requirement => !requirement.1).map Prod.snd

/-- The requirements that no sum of sizes enters are met. -/
def Sized (config : Config) (g : Geometry) : Prop :=
  2 ≤ g.pages ∧ 1 ≤ config.headerSize.toNat ∧ g.pageSize ≤ 65536

/-- The geometry is judged by the sizes themselves: it is accepted just if all requirements are met,
and refused with the fault of the first one that is not. -/
structure IsExact (config : Config) (overflow : Overflow) (g : Geometry) : Prop where
  accepted_iff : config.faultOn overflow g = none ↔ 2 ≤ g.pages ∧ 1 ≤ config.headerSize.toNat ∧
    g.pageSize ≤ 65536 ∧ config.headerSize.toNat + config.reserve.toNat + 1 ≤ g.pageSize
  fault_eq : config.faultOn overflow g =
    config.verdict g (config.headerSize.toNat + config.reserve.toNat + 1)

/-! ## Verdicts -/

theorem verdict_eq_none_iff (config : Config) (g : Geometry) (room : Nat) :
    config.verdict g room = none ↔ 2 ≤ g.pages ∧ 1 ≤ config.headerSize.toNat ∧
      g.pageSize ≤ 65536 ∧ room ≤ g.pageSize := by
  simp [verdict, requirements]

theorem verdict_of_sized (h : config.Sized g) (room : Nat) : config.verdict g room =
    if g.pageSize < room then some (.pageTooSmall g.pageSize room) else none := by
  obtain ⟨hpages, hheader, hsize⟩ := h
  by_cases hroom : room ≤ g.pageSize
  · simp [verdict, requirements, hpages, hheader, hsize, hroom, Nat.not_lt.mpr hroom]
  · simp [verdict, requirements, hpages, hheader, hsize, hroom, Nat.lt_of_not_le hroom]

/-! ## The checks -/

theorem headerSize_eq_zero_iff (config : Config) :
    config.headerSize = 0 ↔ config.headerSize.toNat = 0 := by
  rw [← UInt8.toNat_inj, UInt8.toNat_zero]

/-- Where an earlier requirement is not met, the sizes are not added up. -/
theorem faultOn_of_not_sized (h : ¬config.Sized g) (room : Nat) :
    config.faultOn overflow g = config.verdict g room := by
  unfold faultOn
  split
  next hpages => simp [verdict, requirements, Nat.not_le.mpr hpages]
  next hpages =>
    have htwo := Nat.not_lt.mp hpages
    split
    next hheader =>
      simp [verdict, requirements, htwo, config.headerSize_eq_zero_iff.mp hheader]
    next hheader =>
      have hpos := Nat.pos_of_ne_zero fun hzero => hheader (config.headerSize_eq_zero_iff.mpr hzero)
      have hlarge : ¬g.pageSize ≤ 65536 := fun hsize => h ⟨htwo, hpos, hsize⟩
      rw [if_pos (show maxPageSize < g.pageSize from Nat.lt_of_not_le hlarge)]
      simp [verdict, requirements, htwo, Nat.succ_le_of_lt hpos, hlarge]

theorem faultOn_of_sized (h : config.Sized g) : config.faultOn overflow g =
    match overflow.sum? config.needed with
    | none => some .overflow
    | some room => config.verdict g room := by
  have hheader : ¬config.headerSize = 0 := fun hzero =>
    Nat.ne_of_gt h.2.1 (config.headerSize_eq_zero_iff.mp hzero)
  have hsize : ¬maxPageSize < g.pageSize := Nat.not_lt.mpr h.2.2
  rw [faultOn, if_neg (Nat.not_lt.mpr h.1), if_neg hheader, if_neg hsize]
  cases overflow.sum? config.needed with
  | none => rfl
  | some room => exact (verdict_of_sized h room).symm

theorem needed_lt (config : Config) : config.needed < UInt64.size + 0x100 := by
  have hheader := config.headerSize.toNat_lt
  have hreserve := config.reserve.toNat_lt
  rw [needed, UInt64.size]
  omega

/-- A sum beyond 64 bits ends the program. Where it wraps, at most 255 words are asked for. -/
theorem faultOn_of_le (h : config.Sized g) (hbeyond : UInt64.size ≤ config.needed) :
    config.faultOn overflow g = match overflow with
      | .ends => some .overflow
      | .wraps => config.verdict g (config.needed - UInt64.size) := by
  rw [faultOn_of_sized h]
  cases overflow with
  | ends => rw [Overflow.sum?_ends_of_le hbeyond]
  | wraps =>
    have hlt := config.needed_lt
    rw [Overflow.sum?_wraps_of_le hbeyond, Nat.mod_eq_sub_mod hbeyond,
      Nat.mod_eq_of_lt (by rw [UInt64.size] at hlt ⊢; omega)]

/-! ## Exact verdicts -/

theorem isExact_of_fault_eq (h : config.faultOn overflow g = config.verdict g config.needed) :
    config.IsExact overflow g where
  accepted_iff := h ▸ config.verdict_eq_none_iff g config.needed
  fault_eq := h

theorem isExact_of_lt (h : config.needed < UInt64.size) : config.IsExact overflow g := by
  by_cases hsized : config.Sized g
  · refine isExact_of_fault_eq ?_
    rw [faultOn_of_sized hsized, Overflow.sum?_of_lt h]
  · exact isExact_of_fault_eq (faultOn_of_not_sized hsized _)

/-- No page has room for a sum beyond 64 bits, and neither build says so. -/
theorem not_isExact_of_sized (h : config.Sized g) (hbeyond : UInt64.size ≤ config.needed) :
    ¬config.IsExact overflow g := by
  intro hexact
  have hsize := h.2.2
  have hpos : 0 < UInt64.size := by decide
  have hlarge : g.pageSize < config.needed := by
    rw [UInt64.size] at hbeyond
    omega
  have hverdict : config.verdict g config.needed =
      some (.pageTooSmall g.pageSize config.needed) := by
    rw [verdict_of_sized h, if_pos hlarge]
  have hfault := (faultOn_of_le h hbeyond).symm.trans (hexact.fault_eq.trans hverdict)
  cases overflow with
  | ends => cases hfault
  | wraps =>
    dsimp only at hfault
    rw [verdict_of_sized h] at hfault
    split at hfault
    · simp only [Option.some.injEq, ConfigFault.pageTooSmall.injEq] at hfault
      omega
    · cases hfault

/-- A geometry is judged by the sizes themselves just if an earlier requirement is not met or the
sum of the sizes is a number of 64 bits. A sum beyond these ends the program. Where it wraps it
comes to at most 255 words, the geometry is accepted if its pages have as many, and refused with
that number if they have not. -/
theorem isExact_iff (config : Config) (overflow : Overflow) (g : Geometry) :
    (config.IsExact overflow g ↔ (config.Sized g → config.needed < UInt64.size)) ∧
      (¬config.IsExact overflow g → config.needed - UInt64.size ≤ 0xff ∧
        config.faultOn overflow g = match overflow with
          | .ends => some .overflow
          | .wraps =>
            if g.pageSize < config.needed - UInt64.size then
              some (.pageTooSmall g.pageSize (config.needed - UInt64.size))
            else none) := by
  have hiff : config.IsExact overflow g ↔ (config.Sized g → config.needed < UInt64.size) := by
    constructor
    · exact fun hexact hsized => Nat.lt_of_not_le fun hbeyond =>
        not_isExact_of_sized hsized hbeyond hexact
    · intro hwithin
      by_cases hsized : config.Sized g
      · exact isExact_of_lt (hwithin hsized)
      · exact isExact_of_fault_eq (faultOn_of_not_sized hsized _)
  refine ⟨hiff, fun hnot => ?_⟩
  rw [hiff, Classical.not_imp, Nat.not_lt] at hnot
  obtain ⟨hsized, hbeyond⟩ := hnot
  have hlt := config.needed_lt
  refine ⟨by omega, ?_⟩
  rw [faultOn_of_le hsized hbeyond, verdict_of_sized hsized]

/-- The sum wraps to 255 words, and a page of 64 words is refused as too small for these. -/
example : (⟨0xffffffffffffffff, 255⟩ : Config).faultOn .wraps ⟨2, 64⟩ =
    some (.pageTooSmall 64 255) := by
  decide

/-- With a reserve of 2^64 - 1 words the program ends on two pages of sixteen words, or it accepts
them. -/
theorem not_isExact : ¬∃ overflow, ∀ (config : Config) (g : Geometry), g.pages < UInt64.size →
    g.pageSize < UInt64.size → config.IsExact overflow g := by
  rintro ⟨overflow, hexact⟩
  have hfault := (hexact ⟨0xffffffffffffffff, 1⟩ ⟨2, 16⟩ (by decide) (by decide)).fault_eq
  cases overflow with
  | ends => exact absurd hfault (by decide)
  | wraps => exact absurd hfault (by decide)

end Config

end RingLog
