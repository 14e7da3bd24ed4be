/-!
# Words of the medium

Everything a medium stores is a 32-bit word. An erased word has every bit set (`Word.erased`);
reports write a word as eight hexadecimal digits (`Word.hex`).
-/

namespace RingLog

/-- A 32-bit word of a storage medium. -/
abbrev Word := UInt32

namespace Word

/-- An erased word reads as all ones. -/
def erased : Word := 0xffffffff

/-- The last `width` hexadecimal digits of a number, the highest first. -/
def hexDigits : Nat → Nat → List Char
  | 0, _ => []
  | width + 1, n => hexDigits width (n / 16) ++ [Nat.digitChar (n % 16)]

/-- The eight lowercase hexadecimal digits of a word. -/
def hex (word : Word) : String :=
  String.ofList (hexDigits 8 word.toNat)

theorem length_hexDigits (width n : Nat) : (hexDigits width n).length = width := by
  induction width generalizing n with
  | zero => rfl
  | succ width ih => simp [hexDigits, ih]

end Word

end RingLog
