import RingLog.Format.Word

/-!
# Page headers

The first word of every page describes the page: the format version in the top byte, the number
of header words in the next one, and the sequence number of the page in the low half. Records
start behind the header words.

Main statements: `Header.decode_encode`, a header is read back as it was written, and
`Header.encode_current_ne_erased`, no header of the current version reads as erased.
-/

namespace RingLog

/-- The description a page carries in its first word. -/
structure Header where
  version : UInt8
  /-- Words before the first record. -/
  size : UInt8
  /-- Place of the page in the life of the log, modulo 2^16. -/
  number : UInt16
  deriving DecidableEq, Repr

namespace Header

/-- The version of the format described here. -/
def currentVersion : UInt8 := 1

/-- The offset of the header word in its page. -/
def offset : Nat := 0

/-- The header of a page written in the current version. -/
def current (size : UInt8) (number : UInt16) : Header :=
  ⟨currentVersion, size, number⟩

/-- The header as a word. -/
def encode (header : Header) : Word :=
  UInt32.ofNat
    (header.version.toNat * 0x1000000 + header.size.toNat * 0x10000 + header.number.toNat)

/-- Reads a header word. Every word is some header; an erased one has every field at its maximum. -/
def decode (word : Word) : Header where
  version := UInt8.ofNat (word.toNat / 0x1000000)
  size := UInt8.ofNat (word.toNat / 0x10000)
  number := UInt16.ofNat word.toNat

theorem toNat_encode (header : Header) : header.encode.toNat =
    header.version.toNat * 0x1000000 + header.size.toNat * 0x10000 + header.number.toNat := by
  have hversion := header.version.toNat_lt
  have hsize := header.size.toNat_lt
  have hnumber := header.number.toNat_lt
  rw [encode, UInt32.toNat_ofNat']
  omega

theorem decode_encode (header : Header) : decode header.encode = header := by
  have hsize := header.size.toNat_lt
  have hnumber := header.number.toNat_lt
  obtain ⟨version, size, number⟩ := header
  simp only [decode, toNat_encode, mk.injEq, ← UInt8.toNat_inj, ← UInt16.toNat_inj,
    UInt8.toNat_ofNat', UInt16.toNat_ofNat']
  have hversion := version.toNat_lt
  dsimp only at hsize hnumber
  omega

theorem encode_current_ne_erased (size : UInt8) (number : UInt16) :
    (current size number).encode ≠ Word.erased := by
  intro h
  have hsize := size.toNat_lt
  have hnumber := number.toNat_lt
  have hnat := congrArg UInt32.toNat h
  rw [toNat_encode] at hnat
  simp only [current, currentVersion, Word.erased, UInt8.reduceToNat, UInt32.reduceToNat] at hnat
  omega

end Header

end RingLog
