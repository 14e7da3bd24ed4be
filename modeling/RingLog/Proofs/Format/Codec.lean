import RingLog.Format.Record

/-!
# The words of records

A word is that of a record, or its tag is not in use, or it is erased. Which of the three it is
depends on the range it lies in (`Decoded.Describes`), and decoding finds out: it reads a word of a
record as the one record whose payload fits its field and whose word it is.

A payload beyond its field is cut to it (`Record.reduced`), and the record read back is the one with
the payload cut.

Main statement: `Record.decode_partition`.
-/

namespace RingLog

namespace Record

/-- The payload fits into the field that the word of the record has for it. -/
def InRange : Record → Prop
  | anchor seconds => seconds.toNat < 0x80000000
  | elapsed millis => millis.toNat < 0x1000000
  | occurrence code => code.toNat < 0x1000000
  | reading _ _ => True

instance : DecidablePred InRange
  | anchor _ | elapsed _ | occurrence _ => inferInstanceAs (Decidable (_ < _))
  | reading _ _ => inferInstanceAs (Decidable True)

/-- The record with its payload cut to its field. -/
def reduced : Record → Record
  | anchor seconds => anchor (UInt32.ofNat (seconds.toNat % 0x80000000))
  | elapsed millis => elapsed (UInt32.ofNat (millis.toNat % 0x1000000))
  | occurrence code => occurrence (UInt32.ofNat (code.toNat % 0x1000000))
  | reading kind sample => reading kind sample

end Record

/-- What a word is, by the range that it lies in. -/
def Decoded.Describes (word : Word) : Decoded → Prop
  | absent => word = Word.erased
  | invalid other => other = word ∧ 0x83000000 ≤ word.toNat ∧ word.toNat ≤ 0xfffffffe
  | valid record => word.toNat < 0x83000000 ∧ record.InRange ∧ record.encode = word

namespace Record

/-! ## Cutting payloads -/

theorem toNat_ofNat_mod {modulus : Nat} (hpos : 0 < modulus) (hle : modulus ≤ 0x100000000)
    (n : Nat) : (UInt32.ofNat (n % modulus)).toNat = n % modulus := by
  rw [UInt32.toNat_ofNat']
  exact Nat.mod_eq_of_lt (Nat.lt_of_lt_of_le (Nat.mod_lt n hpos) hle)

theorem inRange_reduced (record : Record) : record.reduced.InRange := by
  cases record with
  | anchor seconds =>
    rw [reduced, InRange, toNat_ofNat_mod (by decide) (by decide)]
    exact Nat.mod_lt _ (by decide)
  | elapsed millis =>
    rw [reduced, InRange, toNat_ofNat_mod (by decide) (by decide)]
    exact Nat.mod_lt _ (by decide)
  | occurrence code =>
    rw [reduced, InRange, toNat_ofNat_mod (by decide) (by decide)]
    exact Nat.mod_lt _ (by decide)
  | reading kind sample => trivial

theorem ofNat_mod_of_lt {payload : UInt32} {modulus : Nat} (h : payload.toNat < modulus) :
    UInt32.ofNat (payload.toNat % modulus) = payload := by
  rw [Nat.mod_eq_of_lt h, UInt32.ofNat_toNat]

theorem reduced_of_inRange {record : Record} (h : record.InRange) : record.reduced = record := by
  cases record with
  | anchor seconds => exact congrArg anchor (ofNat_mod_of_lt h)
  | elapsed millis => exact congrArg elapsed (ofNat_mod_of_lt h)
  | occurrence code => exact congrArg occurrence (ofNat_mod_of_lt h)
  | reading kind sample => rfl

/-- Cutting changes just the records whose payload does not fit. -/
theorem reduced_eq_iff (record : Record) : record.reduced = record ↔ record.InRange :=
  ⟨fun h => h ▸ record.inRange_reduced, reduced_of_inRange⟩

/-! ## Reading records back -/

/-- A tagged word is taken apart into its tag and its payload again. -/
theorem tagged_split {tag : Nat} (h : tag < 0xff) (payload : Nat) :
    tagged tag payload ≠ Word.erased ∧ (tagged tag payload).toNat / 0x1000000 = tag ∧
      (tagged tag payload).toNat % 0x1000000 = payload % 0x1000000 := by
  have htoNat := toNat_tagged (Nat.lt_succ_of_lt h) payload
  exact ⟨tagged_ne_erased h payload, by omega, by omega⟩

theorem decode_tagged {tag : Nat} (hle : 0x80 ≤ tag) (hlt : tag < 0xff) (payload : Nat) :
    decode (tagged tag payload) =
      if tag = 0x80 then .valid (elapsed (UInt32.ofNat (payload % 0x1000000)))
      else if tag = 0x81 then .valid (occurrence (UInt32.ofNat (payload % 0x1000000)))
      else if tag = 0x82 then .valid (reading (UInt8.ofNat (payload % 0x1000000 / 0x10000))
        (UInt16.ofNat (payload % 0x1000000)))
      else .invalid (tagged tag payload) := by
  obtain ⟨hne, htag, hpayload⟩ := tagged_split hlt payload
  rw [decode, if_neg hne, if_neg (by omega)]
  dsimp only
  rw [htag, hpayload]

theorem decode_encode (record : Record) : decode record.encode = .valid record.reduced := by
  cases record with
  | anchor seconds => exact decode_encode_anchor seconds
  | elapsed millis => exact decode_encode_elapsed millis
  | occurrence code => exact decode_tagged (by decide) (by decide) code.toNat
  | reading kind sample =>
    have hkind := kind.toNat_lt
    have hsample := sample.toNat_lt
    have hhigh : (kind.toNat * 0x10000 + sample.toNat) % 0x1000000 / 0x10000 = kind.toNat := by
      omega
    have hlow : (kind.toNat * 0x10000 + sample.toNat) % 0x1000000 % 2 ^ 16 = sample.toNat := by
      omega
    refine (decode_tagged (by decide) (by decide) _).trans ?_
    rw [if_neg (by decide), if_neg (by decide), if_pos rfl, hhigh, UInt8.ofNat_toNat]
    refine congrArg (fun sample => Decoded.valid (reading kind sample)) ?_
    rw [← UInt16.toNat_inj, UInt16.toNat_ofNat', hlow]

/-! ## Reading words -/

theorem tagged_toNat_mod {word : Word} {tag payload : Nat}
    (h : word.toNat = tag * 0x1000000 + payload % 0x1000000) : tagged tag payload = word := by
  rw [tagged, ← h, UInt32.ofNat_toNat]

/-- Decoding says of each word what it is. -/
theorem describes_decode (word : Word) : (decode word).Describes word := by
  have hlt := word.toNat_lt
  unfold decode
  split
  next herased => exact herased
  next hne =>
    have hnat : word.toNat ≠ 0xffffffff := fun heq => hne (UInt32.toNat_inj.mp heq)
    split
    next hanchor =>
      refine ⟨by omega, hanchor, ?_⟩
      rw [encode, ofNat_mod_of_lt hanchor]
    next htagged =>
      -- the tag is in the top byte, and the payload is what is left of the word
      have hmod : (UInt32.ofNat (word.toNat % 0x1000000)).toNat = word.toNat % 0x1000000 :=
        toNat_ofNat_mod (by decide) (by decide) _
      have hrange := Nat.mod_lt word.toNat (show 0 < 0x1000000 by decide)
      dsimp only
      split
      next htag =>
        refine ⟨by omega, ?_, tagged_toNat_mod ?_⟩
        · rwa [InRange, hmod]
        · rw [hmod]
          omega
      next _ =>
        split
        next htag =>
          refine ⟨by omega, ?_, tagged_toNat_mod ?_⟩
          · rwa [InRange, hmod]
          · rw [hmod]
            omega
        next _ =>
          split
          next htag =>
            refine ⟨by omega, trivial, tagged_toNat_mod ?_⟩
            rw [UInt8.toNat_ofNat', UInt16.toNat_ofNat']
            omega
          next _ => exact ⟨rfl, by omega, by omega⟩

/-- No word is two things at once. -/
theorem decode_of_describes {word : Word} {outcome : Decoded} (h : outcome.Describes word) :
    decode word = outcome := by
  cases outcome with
  | absent => exact if_pos h
  | invalid other =>
    obtain ⟨rfl, hle, hle'⟩ := h
    have hne : other ≠ Word.erased := by
      rintro rfl
      exact absurd hle' (by decide)
    rw [decode, if_neg hne, if_neg (by omega)]
    dsimp only
    rw [if_neg (by omega), if_neg (by omega), if_neg (by omega)]
  | valid record =>
    obtain ⟨-, hrange, rfl⟩ := h
    rw [decode_encode, reduced_of_inRange hrange]

/-- Every word is just one thing: it is erased, its tag is not in use, or it is the word of one
record with a payload that fits; and decoding says which. Every record has a word that is read back,
as the record itself if its payload fits, and with the payload cut to its field if not. -/
theorem decode_partition :
    (∀ word outcome, decode word = outcome ↔ outcome.Describes word) ∧
      ∀ record : Record, decode record.encode = .valid record.reduced ∧
        (record.reduced = record ↔ record.InRange) :=
  ⟨fun word _ => ⟨fun h => h ▸ describes_decode word, decode_of_describes⟩,
    fun record => ⟨decode_encode record, reduced_eq_iff record⟩⟩

/-- Of a code beyond its field only the last three bytes are read back. -/
example : decode (occurrence 0x5000007).encode = .valid (occurrence 7) := by decide

end Record

end RingLog
