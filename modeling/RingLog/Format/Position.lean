import RingLog.Format.Word

/-!
# Positions and entries

A position numbers the records of a log independently of the slot their page lies in: the page's
sequence number times the page size, plus the index on the page. It is a 32-bit number and wraps;
within one lap of the 2^16 sequence numbers, positions of later records are larger. An entry is a
stored word together with its position.
-/

namespace RingLog

/-- The place of a record in the life of the log. -/
structure Position where
  value : UInt32
  deriving DecidableEq, Repr

namespace Position

/-- The position of record `index` on the page with the given number. -/
def of (number : UInt16) (pageSize index : Nat) : Position :=
  ⟨number.toUInt32 * UInt32.ofNat pageSize + UInt32.ofNat index⟩

/-- On pages of at most 2^16 words no position wraps. -/
theorem toNat_of {number : UInt16} {pageSize index : Nat} (hsize : pageSize ≤ 65536)
    (hindex : index < pageSize) :
    (of number pageSize index).value.toNat = number.toNat * pageSize + index := by
  have hnumber := number.toNat_lt
  have hproduct : number.toNat * pageSize ≤ 65535 * pageSize :=
    Nat.mul_le_mul_right _ (by omega)
  simp only [of, UInt32.toNat_add, UInt32.toNat_mul, UInt16.toNat_toUInt32, UInt32.toNat_ofNat']
  rw [Nat.mod_eq_of_lt (by omega : pageSize < 2 ^ 32), Nat.mod_eq_of_lt (by omega : index < 2 ^ 32),
    Nat.mod_eq_of_lt (by omega : number.toNat * pageSize < 2 ^ 32), Nat.mod_eq_of_lt (by omega)]

instance : LT Position := ⟨fun p q => p.value < q.value⟩

instance : LE Position := ⟨fun p q => p.value ≤ q.value⟩

instance (p q : Position) : Decidable (p < q) :=
  inferInstanceAs (Decidable (p.value < q.value))

instance (p q : Position) : Decidable (p ≤ q) :=
  inferInstanceAs (Decidable (p.value ≤ q.value))

/-- A position is written in decimal. -/
def text (position : Position) : String :=
  toString position.value.toNat

end Position

/-- One record of the log as it is stored: where it stands, and its word. -/
structure Entry where
  position : Position
  word : Word
  deriving DecidableEq, Repr

end RingLog
