import RingLog.Media.Geometry

/-!
# Configuration of a log

A log needs a ring of at least two pages, a header on each, and beside header and reserve room
for one ordinary record. `Config.fault?` names the first requirement that a geometry fails; a log
exists only where there is none (`Config.Fits`).

The sizes are added in 64 bits. A sum beyond them ends the program, or wraps where the program is
built without that check (`Overflow`).

Main statement: `Config.Fits.needed_le`, header, reserve and one record fit on a page.
-/

namespace RingLog

/-- The choices that a log is opened with. -/
structure Config where
  /-- Record slots that are still free on a page when its rotation is requested, so that a crash
  can be recorded before the rotation runs. -/
  reserve : UInt64 := 16
  /-- Words before the first record on every page that the log writes. -/
  headerSize : UInt8 := 1
  deriving DecidableEq, Repr

/-- What a sum beyond 64 bits does. -/
inductive Overflow where
  /-- It ends the program. -/
  | ends
  /-- It loses what is beyond 64 bits. -/
  | wraps
  deriving DecidableEq, Repr

/-- The sum as a number of 64 bits, unless it ends the program. -/
def Overflow.sum? (overflow : Overflow) (sum : Nat) : Option Nat :=
  if sum < UInt64.size then some sum
  else match overflow with
    | ends => none
    | wraps => some (sum % UInt64.size)

theorem Overflow.sum?_of_lt {overflow : Overflow} {sum : Nat} (h : sum < UInt64.size) :
    overflow.sum? sum = some sum :=
  if_pos h

theorem Overflow.sum?_ends_of_le {sum : Nat} (h : UInt64.size ≤ sum) : ends.sum? sum = none :=
  if_neg (Nat.not_lt.mpr h)

theorem Overflow.sum?_wraps_of_le {sum : Nat} (h : UInt64.size ≤ sum) :
    wraps.sum? sum = some (sum % UInt64.size) :=
  if_neg (Nat.not_lt.mpr h)

/-- Why a log cannot be kept on a medium. -/
inductive ConfigFault where
  | tooFewPages (pages : Nat)
  | noHeader
  | pageTooLarge (pageSize : Nat)
  | pageTooSmall (pageSize needed : Nat)
  /-- The program ends at the sum of the sizes, and reports nothing. -/
  | overflow
  deriving DecidableEq, Repr

/-- The text of a fault. -/
def ConfigFault.message : ConfigFault → String
  | tooFewPages pages => "event log needs at least 2 pages, backend has " ++ toString pages
  | noHeader => "page header size must be at least one word"
  | pageTooLarge pageSize =>
    "page of " ++ toString pageSize ++ " words exceeds the addressable position space"
  | pageTooSmall pageSize needed =>
    "page of " ++ toString pageSize ++ " words cannot hold header, reserve and one record (" ++
      toString needed ++ " words)"
  | overflow => "attempt to add with overflow"

namespace Config

/-- The largest page whose records 16-bit page numbers and 32-bit positions tell apart. -/
def maxPageSize : Nat := 65536

/-- Words that header, reserve and one ordinary record take. -/
def needed (config : Config) : Nat :=
  config.headerSize.toNat + config.reserve.toNat + 1

/-- The first requirement that the geometry does not meet. -/
def faultOn (config : Config) (overflow : Overflow) (g : Geometry) : Option ConfigFault :=
  if g.pages < 2 then some (.tooFewPages g.pages)
  else if config.headerSize = 0 then some .noHeader
  else if maxPageSize < g.pageSize then some (.pageTooLarge g.pageSize)
  else match overflow.sum? config.needed with
    | none => some .overflow
    | some room => if g.pageSize < room then some (.pageTooSmall g.pageSize room) else none

/-- The first requirement that the geometry does not meet, in a program that a sum beyond 64 bits
ends. -/
def fault? (config : Config) (g : Geometry) : Option ConfigFault :=
  config.faultOn .ends g

/-- What a geometry without a fault offers the configuration. -/
theorem requirements_of_accepted {config : Config} {g : Geometry} (h : config.fault? g = none) :
    2 ≤ g.pages ∧ config.headerSize ≠ 0 ∧ g.pageSize ≤ maxPageSize ∧
      config.needed ≤ g.pageSize := by
  unfold fault? faultOn at h
  split at h
  · cases h
  · split at h
    · cases h
    · split at h
      · cases h
      · rcases Nat.lt_or_ge config.needed UInt64.size with hsum | hsum
        · simp only [Overflow.sum?_of_lt hsum, ite_eq_right_iff, reduceCtorEq, imp_false] at h
          exact ⟨by omega, by assumption, by omega, by omega⟩
        · simp only [Overflow.sum?_ends_of_le hsum, reduceCtorEq] at h

theorem two_le_pages {config : Config} {g : Geometry} (h : config.fault? g = none) :
    2 ≤ g.pages :=
  (requirements_of_accepted h).1

theorem headerSize_pos_of_accepted {config : Config} {g : Geometry}
    (h : config.fault? g = none) : 0 < config.headerSize.toNat :=
  Nat.pos_of_ne_zero fun hzero => (requirements_of_accepted h).2.1 (UInt8.toNat_inj.mp hzero)

/-- The geometry accepts the configuration. -/
def Fits (config : Config) (g : Geometry) : Prop :=
  config.fault? g = none

instance (config : Config) (g : Geometry) : Decidable (config.Fits g) :=
  inferInstanceAs (Decidable (_ = _))

variable {config : Config} {g : Geometry}

theorem Fits.accepted (h : config.Fits g) : config.fault? g = none :=
  h

theorem Fits.headerSize_pos (h : config.Fits g) : 0 < config.headerSize.toNat :=
  headerSize_pos_of_accepted h.accepted

theorem Fits.pageSize_le (h : config.Fits g) : g.pageSize ≤ maxPageSize :=
  (requirements_of_accepted h.accepted).2.2.1

theorem Fits.needed_le (h : config.Fits g) :
    config.headerSize.toNat + config.reserve.toNat + 1 ≤ g.pageSize :=
  (requirements_of_accepted h.accepted).2.2.2

end Config

end RingLog
