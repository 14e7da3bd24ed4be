import RingLog.Format.Record

/-!
# The wording of records

How reports spell a record (`Record.text`) and a word of any kind (`Decoded.text`). An event
beyond the catalogue is shown by its number.
-/

namespace RingLog

/-- The text of a record. -/
def Record.text : Record → String
  | anchor seconds => "time " ++ toString seconds.toNat ++ "s"
  | elapsed millis => "+" ++ toString millis.toNat ++ "ms"
  | occurrence code =>
    match Occurrence.ofCode? code with
    | some known => known.name
    | none => "simple #" ++ toString code.toNat
  | reading kind sample =>
    match Quantity.ofCode? kind with
    | some known => known.name ++ "=" ++ toString (known.value sample)
    | none => "event16 #" ++ toString kind.toNat ++ "=" ++ toString sample.toNat

/-- The text of a decoded word. -/
def Decoded.text : Decoded → String
  | absent => "empty"
  | invalid word => "invalid " ++ Word.hex word
  | valid record => record.text

end RingLog
