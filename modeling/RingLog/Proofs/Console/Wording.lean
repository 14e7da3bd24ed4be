import Mathlib.Algebra.Group.Nat.Defs
import Mathlib.Data.List.Basic
import Std.Data.String.ToInt
import RingLog.Console.Report
import RingLog.Proofs.Format.Codec

/-!
# What reports tell

The text of a word is a label and what there is to tell beyond it. The label says of which kind the
word is, and which event it names if the catalogue has it (`Topic`); the rest is numbers. No label
begins another one, so a text has one label whatever stands behind it. Behind the label a decimal
number goes as far as there are digits, and a hexadecimal one always has eight of them.

So no report loses anything: the text of a word tells which word it is, and the line of an entry
tells its position and its word.

Main statements: `Decoded.text_injective`, `Entry.line_injective` and `Entry.text_line_inj`.
-/

namespace RingLog

/-! ## Numbers in texts -/

theorem Word.hexDigits_inj {width n m : Nat} (h : hexDigits width n = hexDigits width m) :
    n % 16 ^ width = m % 16 ^ width := by
  induction width generalizing n m with
  | zero => rw [Nat.pow_zero, Nat.mod_one, Nat.mod_one]
  | succ width ih =>
    obtain ⟨hhigh, hlow⟩ := List.append_inj' h rfl
    have hdigit : ∀ i < 16, ∀ j < 16, Nat.digitChar i = Nat.digitChar j → i = j := by decide
    have hlast : n % 16 = m % 16 :=
      hdigit _ (Nat.mod_lt _ (by decide)) _ (Nat.mod_lt _ (by decide)) (List.cons.inj hlow).1
    rw [Nat.pow_succ', Nat.mod_mul, Nat.mod_mul, hlast, ih hhigh]

theorem Word.hex_injective : Function.Injective Word.hex := by
  intro word other h
  have hdigits := hexDigits_inj (String.ofList_injective h)
  have hword := word.toNat_lt
  have hother := other.toNat_lt
  refine UInt32.toNat_inj.mp ?_
  omega

theorem equals_sign_not_mem_repr (n : Nat) : '=' ∉ n.repr.toList := by
  intro hmem
  rw [Nat.toList_repr] at hmem
  exact absurd (Nat.isDigit_of_mem_toDigits (by decide) (by decide) hmem) (by decide)

/-- Two numbers with an equals sign between them are told apart. -/
theorem repr_equals_repr_inj {n m k l : Nat}
    (h : n.repr ++ "=" ++ k.repr = m.repr ++ "=" ++ l.repr) : n = m ∧ k = l := by
  have hchars := congrArg String.toList h
  simp only [String.toList_append, List.append_assoc] at hchars
  obtain ⟨hfirst, -, hsecond⟩ := (List.append_cons_inj_of_notMem
    (equals_sign_not_mem_repr n) (equals_sign_not_mem_repr k)).mp hchars
  exact ⟨Nat.repr_injective (String.toList_inj.mp hfirst),
    Nat.repr_injective (String.toList_inj.mp hsecond)⟩

/-! ## The catalogues -/

theorem Occurrence.eq_code_of_ofCode? {code : UInt32} {what : Occurrence}
    (h : ofCode? code = some what) : code = what.code := by
  have hlt := (List.getElem?_eq_some_iff.mp h).1
  have hnodup : all.Nodup := by decide
  exact UInt32.toNat_inj.mp
    ((List.getElem?_inj hlt hnodup).mp (h.trans (ofCode?_code what).symm))

theorem Quantity.eq_code_of_ofCode? {code : UInt8} {quantity : Quantity}
    (h : ofCode? code = some quantity) : code = quantity.code := by
  have hlt := (List.getElem?_eq_some_iff.mp h).1
  have hnodup : all.Nodup := by decide
  exact UInt8.toNat_inj.mp
    ((List.getElem?_inj hlt hnodup).mp (h.trans (ofCode?_code quantity).symm))

/-- Different samples stand for different numbers, signed or not. -/
theorem Quantity.value_injective (quantity : Quantity) : Function.Injective quantity.value := by
  intro sample other h
  have hsample := sample.toNat_lt
  have hother := other.toNat_lt
  refine UInt16.toNat_inj.mp ?_
  cases quantity with
  | temperature =>
    have hmod : (sample.toNat : Int) % (65536 : Nat) = (other.toNat : Int) % (65536 : Nat) := by
      rw [← Int.bmod_emod, ← Int.bmod_emod (x := (other.toNat : Int))]
      exact congrArg (· % ((65536 : Nat) : Int)) h
    omega
  | batteryVoltage => exact Int.ofNat_inj.mp h
  | acceleration => exact Int.ofNat_inj.mp h
  | steps => exact Int.ofNat_inj.mp h

/-! ## Labels -/

/-- What the label of a text tells. -/
inductive Topic where
  | absent
  | invalid
  | anchor
  | elapsed
  /-- An occurrence, which one if the catalogue has it. -/
  | occurrence (known? : Option Occurrence)
  /-- A sample, of which quantity if the catalogue has it. -/
  | reading (known? : Option Quantity)
  deriving DecidableEq

namespace Topic

/-- All topics there are. -/
def all : List Topic :=
  [absent, invalid, anchor, elapsed] ++
    (none :: Occurrence.all.map some).map occurrence ++ (none :: Quantity.all.map some).map reading

/-- The part of a text that tells its topic. -/
def label : Topic → String
  | absent => "empty"
  | invalid => "invalid "
  | anchor => "time "
  | elapsed => "+"
  | occurrence (some known) => known.name
  | occurrence none => "simple #"
  | reading (some known) => known.name ++ "="
  | reading none => "event16 #"

theorem mem_all (topic : Topic) : topic ∈ all := by
  match topic with
  | absent | invalid | anchor | elapsed | occurrence none | reading none => decide
  | occurrence (some known) => cases known <;> decide
  | reading (some known) => cases known <;> decide

/-- No label begins the label of another topic. -/
theorem eq_of_label_begins : ∀ topic ∈ all, ∀ other ∈ all,
    topic.label.toList <+: other.label.toList → topic = other := by
  decide +kernel

/-- Whatever stands behind the label, a text has one topic. -/
theorem label_append_inj {topic other : Topic} {rest rest' : String}
    (h : topic.label ++ rest = other.label ++ rest') : topic = other ∧ rest = rest' := by
  have hchars := congrArg String.toList h
  rw [String.toList_append, String.toList_append] at hchars
  have hbegins : topic.label.toList <+: other.label.toList ++ rest'.toList :=
    hchars ▸ List.prefix_append _ _
  have htopic : topic = other := by
    rcases List.prefix_or_prefix_of_prefix hbegins (List.prefix_append _ _) with hle | hle
    · exact eq_of_label_begins _ topic.mem_all _ other.mem_all hle
    · exact (eq_of_label_begins _ other.mem_all _ topic.mem_all hle).symm
  subst htopic
  exact ⟨rfl, (String.append_right_inj _).mp h⟩

end Topic

/-! ## Records -/

namespace Record

/-- The topic of the record's text. -/
def topic : Record → Topic
  | anchor _ => .anchor
  | elapsed _ => .elapsed
  | occurrence code => .occurrence (Occurrence.ofCode? code)
  | reading kind _ => .reading (Quantity.ofCode? kind)

/-- Records share no topic with words of another kind. -/
theorem topic_ne (record : Record) : record.topic ≠ .absent ∧ record.topic ≠ .invalid := by
  cases record <;> exact ⟨nofun, nofun⟩

/-- What the record's text tells behind the label. -/
def detail : Record → String
  | anchor seconds => toString seconds.toNat ++ "s"
  | elapsed millis => toString millis.toNat ++ "ms"
  | occurrence code =>
    match Occurrence.ofCode? code with
    | some _ => ""
    | none => toString code.toNat
  | reading kind sample =>
    match Quantity.ofCode? kind with
    | some known => toString (known.value sample)
    | none => toString kind.toNat ++ "=" ++ toString sample.toNat

theorem text_eq (record : Record) : record.text = record.topic.label ++ record.detail := by
  cases record with
  | anchor seconds => exact String.append_assoc
  | elapsed millis => exact String.append_assoc
  | occurrence code =>
    simp only [text, topic, detail]
    cases Occurrence.ofCode? code with
    | none => rfl
    | some known => exact String.append_empty.symm
  | reading kind sample =>
    simp only [text, topic, detail]
    cases Quantity.ofCode? kind with
    | none => simp only [Topic.label, String.append_assoc]
    | some known => rfl

theorem occurrence_eq_of_detail {code other : UInt32}
    (htopic : Occurrence.ofCode? code = Occurrence.ofCode? other)
    (hdetail : (occurrence code).detail = (occurrence other).detail) : code = other := by
  cases hcode : Occurrence.ofCode? code with
  | some known =>
    exact (Occurrence.eq_code_of_ofCode? hcode).trans
      (Occurrence.eq_code_of_ofCode? (htopic ▸ hcode)).symm
  | none =>
    simp only [detail, ← htopic, hcode] at hdetail
    exact UInt32.toNat_inj.mp (Nat.repr_injective hdetail)

theorem reading_eq_of_detail {kind other : UInt8} {sample sample' : UInt16}
    (htopic : Quantity.ofCode? kind = Quantity.ofCode? other)
    (hdetail : (reading kind sample).detail = (reading other sample').detail) :
    kind = other ∧ sample = sample' := by
  cases hkind : Quantity.ofCode? kind with
  | some known =>
    simp only [detail, ← htopic, hkind] at hdetail
    exact ⟨(Quantity.eq_code_of_ofCode? hkind).trans
      (Quantity.eq_code_of_ofCode? (htopic ▸ hkind)).symm,
      known.value_injective (Int.repr_injective hdetail)⟩
  | none =>
    simp only [detail, ← htopic, hkind] at hdetail
    obtain ⟨hkinds, hsamples⟩ := repr_equals_repr_inj hdetail
    exact ⟨UInt8.toNat_inj.mp hkinds, UInt16.toNat_inj.mp hsamples⟩

/-- A record is known by its topic and what its text tells behind the label. -/
theorem eq_of_topic_of_detail {record other : Record} (htopic : record.topic = other.topic)
    (hdetail : record.detail = other.detail) : record = other := by
  cases record <;> cases other <;> try cases htopic
  case anchor.anchor seconds seconds' =>
    have hnumber := (String.append_left_inj _).mp hdetail
    exact congrArg anchor (UInt32.toNat_inj.mp (Nat.repr_injective hnumber))
  case elapsed.elapsed millis millis' =>
    have hnumber := (String.append_left_inj _).mp hdetail
    exact congrArg elapsed (UInt32.toNat_inj.mp (Nat.repr_injective hnumber))
  case occurrence.occurrence code code' =>
    exact congrArg occurrence (occurrence_eq_of_detail (Topic.occurrence.inj htopic) hdetail)
  case reading.reading kind sample kind' sample' =>
    obtain ⟨rfl, rfl⟩ := reading_eq_of_detail (Topic.reading.inj htopic) hdetail
    rfl

/-- Each word is decoded in its own way. -/
theorem decode_injective : Function.Injective decode := by
  intro word other h
  have hword := describes_decode word
  have hother := describes_decode other
  rw [h] at hword
  cases houtcome : decode other with
  | absent =>
    rw [houtcome] at hword hother
    exact hword.trans hother.symm
  | invalid stored =>
    rw [houtcome] at hword hother
    exact hword.1.symm.trans hother.1
  | valid record =>
    rw [houtcome] at hword hother
    exact hword.2.2.symm.trans hother.2.2

end Record

/-! ## Decoded words -/

namespace Decoded

/-- The topic of the text of a decoded word. -/
def topic : Decoded → Topic
  | absent => .absent
  | invalid _ => .invalid
  | valid record => record.topic

/-- What the text of a decoded word tells behind the label. -/
def detail : Decoded → String
  | absent => ""
  | invalid word => Word.hex word
  | valid record => record.detail

theorem text_eq (decoded : Decoded) : decoded.text = decoded.topic.label ++ decoded.detail := by
  cases decoded with
  | absent => rfl
  | invalid word => rfl
  | valid record => exact record.text_eq

/-- No two outcomes of decoding have the same text. -/
theorem text_injective : Function.Injective text := by
  intro decoded other h
  rw [text_eq, text_eq] at h
  obtain ⟨htopic, hdetail⟩ := Topic.label_append_inj h
  cases decoded with
  | absent =>
    cases other with
    | absent => rfl
    | invalid word => cases htopic
    | valid record => exact absurd htopic.symm record.topic_ne.1
  | invalid word =>
    cases other with
    | absent => cases htopic
    | invalid word' => exact congrArg invalid (Word.hex_injective hdetail)
    | valid record => exact absurd htopic.symm record.topic_ne.2
  | valid record =>
    cases other with
    | absent => exact absurd htopic record.topic_ne.1
    | invalid word => exact absurd htopic record.topic_ne.2
    | valid record' => exact congrArg valid (Record.eq_of_topic_of_detail htopic hdetail)

end Decoded

/-! ## Lines -/

theorem Position.text_injective : Function.Injective Position.text := by
  intro position other h
  have hvalue : position.value = other.value := UInt32.toNat_inj.mp (Nat.repr_injective h)
  cases position
  cases other
  exact congrArg Position.mk hvalue

namespace Entry

theorem line_injective : Function.Injective line := by
  intro entry other h
  -- the word is in the last eight digits, and the position in what is left of the line
  have hchars := congrArg String.toList h
  simp only [line, String.toList_append] at hchars
  have hlength : entry.word.hex.toList.length = other.word.hex.toList.length := by
    simp only [Word.hex, String.toList_ofList, Word.length_hexDigits]
  obtain ⟨hfront, hhex⟩ := List.append_inj' hchars hlength
  have hword := Word.hex_injective (String.toList_inj.mp hhex)
  have hposition := Position.text_injective
    (String.toList_inj.mp (List.append_cancel_left (List.append_cancel_right hfront)))
  cases entry
  cases other
  exact congrArg₂ Entry.mk hposition hword

/-- The text of what a word says tells the word, whether it is a record, erased or neither; and the
line of an entry tells its position and its word. -/
theorem text_line_inj :
    (∀ word other : Word, (Record.decode word).text = (Record.decode other).text ↔ word = other) ∧
      ∀ entry other : Entry, entry.line = other.line ↔
        entry.position = other.position ∧ entry.word = other.word := by
  refine ⟨fun word other => ?_, fun entry other => ?_⟩
  · exact (Decoded.text_injective.comp Record.decode_injective).eq_iff
  · refine line_injective.eq_iff.trans ⟨fun h => ⟨congrArg position h, congrArg word h⟩, ?_⟩
    cases entry
    cases other
    exact fun h => congrArg₂ Entry.mk h.1 h.2

/-- Only the sign and the digits are left to tell one temperature from another. -/
example : (Record.decode 0x8202ff83).text = "temp-decidegc=-125" := by decide

end Entry

end RingLog
