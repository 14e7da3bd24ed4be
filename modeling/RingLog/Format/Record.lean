import RingLog.Format.Event
import RingLog.Format.Word

/-!
# Records and their words

A record takes one word. With the top bit clear the other thirty-one bits are an absolute time in
seconds. Otherwise the top byte is a tag and the low three bytes are the payload:

* `0x80`: milliseconds since the last time record,
* `0x81`: the code of an occurrence,
* `0x82`: one byte for the quantity and two for its sample.

Words with a higher tag stand for no record. The all-ones word is the erased one and stands for
the absence of a record.

Main statements: `Record.encode_ne_erased`, the word of a record is never the erased one;
`Record.decode_encode_anchor` and `Record.decode_encode_elapsed`, time records are read back.
-/

namespace RingLog

/-- What one word of the log says. -/
inductive Record where
  /-- The absolute time in seconds since the epoch; the word keeps thirty-one bits of it. -/
  | anchor (seconds : UInt32)
  /-- The time passed since the last time record; the word keeps twenty-four bits of it. -/
  | elapsed (millis : UInt32)
  /-- An occurrence by its code; the word keeps twenty-four bits of it. -/
  | occurrence (code : UInt32)
  /-- A sample of the quantity with the given code. -/
  | reading (kind : UInt8) (sample : UInt16)
  deriving DecidableEq, Repr

namespace Record

/-- The record of an occurrence of the catalogue. -/
def ofOccurrence (what : Occurrence) : Record :=
  occurrence what.code

/-- The record of a sample of a quantity of the catalogue. -/
def ofSample (quantity : Quantity) (sample : UInt16) : Record :=
  reading quantity.code sample

/-- True of the records that only tell the time. -/
def isTime : Record → Bool
  | anchor _ | elapsed _ => true
  | occurrence _ | reading _ _ => false

/-- The longest time in milliseconds that an `elapsed` record can hold. -/
def maxElapsed : Nat := 0xffffff

/-- The word with a tag in its top byte and the payload, cut to three bytes, below it. -/
def tagged (tag payload : Nat) : Word :=
  UInt32.ofNat (tag * 0x1000000 + payload % 0x1000000)

/-- The word of a record. Payload bits beyond the field are dropped. -/
def encode : Record → Word
  | anchor seconds => UInt32.ofNat (seconds.toNat % 0x80000000)
  | elapsed millis => tagged 0x80 millis.toNat
  | occurrence code => tagged 0x81 code.toNat
  | reading kind sample => tagged 0x82 (kind.toNat * 0x10000 + sample.toNat)

theorem toNat_tagged {tag : Nat} (h : tag < 0x100) (payload : Nat) :
    (tagged tag payload).toNat = tag * 0x1000000 + payload % 0x1000000 := by
  rw [tagged, UInt32.toNat_ofNat']
  omega

theorem tagged_ne_erased {tag : Nat} (h : tag < 0xff) (payload : Nat) :
    tagged tag payload ≠ Word.erased := by
  intro heq
  have hnat := congrArg UInt32.toNat heq
  rw [toNat_tagged (by omega)] at hnat
  simp only [Word.erased, UInt32.reduceToNat] at hnat
  omega

theorem encode_ne_erased (record : Record) : record.encode ≠ Word.erased := by
  cases record with
  | anchor seconds =>
    intro heq
    have hnat := congrArg UInt32.toNat heq
    simp only [encode, UInt32.toNat_ofNat', Word.erased, UInt32.reduceToNat] at hnat
    omega
  | elapsed millis => exact tagged_ne_erased (by decide) _
  | occurrence code => exact tagged_ne_erased (by decide) _
  | reading kind sample => exact tagged_ne_erased (by decide) _

end Record

/-- What a stored word turns out to be. -/
inductive Decoded where
  /-- The word is erased. -/
  | absent
  /-- The tag is not in use. -/
  | invalid (word : Word)
  | valid (record : Record)
  deriving DecidableEq, Repr

/-- Reads a word back. -/
def Record.decode (word : Word) : Decoded :=
  if word = Word.erased then .absent
  else if word.toNat < 0x80000000 then .valid (anchor word)
  else
    let tag := word.toNat / 0x1000000
    let payload := word.toNat % 0x1000000
    if tag = 0x80 then .valid (elapsed (UInt32.ofNat payload))
    else if tag = 0x81 then .valid (occurrence (UInt32.ofNat payload))
    else if tag = 0x82 then
      .valid (reading (UInt8.ofNat (payload / 0x10000)) (UInt16.ofNat payload))
    else .invalid word

namespace Record

theorem decode_of_lt {word : Word} (h : word.toNat < 0x80000000) :
    decode word = .valid (anchor word) := by
  have hne : word ≠ Word.erased := by
    intro heq
    rw [heq] at h
    exact absurd h (by decide)
  rw [decode, if_neg hne, if_pos h]

/-- An anchor is read back, but for the bits that its word does not keep. -/
theorem decode_encode_anchor (seconds : UInt32) : decode (anchor seconds).encode =
    .valid (anchor (UInt32.ofNat (seconds.toNat % 0x80000000))) := by
  refine decode_of_lt ?_
  rw [encode, UInt32.toNat_ofNat']
  omega

/-- An elapsed time is read back, but for the bits that its word does not keep. -/
theorem decode_encode_elapsed (millis : UInt32) : decode (elapsed millis).encode =
    .valid (elapsed (UInt32.ofNat (millis.toNat % 0x1000000))) := by
  have htoNat := toNat_tagged (by decide : 0x80 < 0x100) millis.toNat
  have hne := tagged_ne_erased (by decide : 0x80 < 0xff) millis.toNat
  have htag : (tagged 0x80 millis.toNat).toNat / 0x1000000 = 0x80 := by omega
  have hpayload : (tagged 0x80 millis.toNat).toNat % 0x1000000 = millis.toNat % 0x1000000 := by
    omega
  rw [encode, decode, if_neg hne, if_neg (by omega)]
  dsimp only
  rw [if_pos htag, hpayload]

end Record

/-- The record in a word, if there is one. -/
def Decoded.record? : Decoded → Option Record
  | valid record => some record
  | absent | invalid _ => none

end RingLog
