import RingLog.Device.Message

/-!
# Watching the battery

The battery voltage is sampled by a twelve-bit converter behind a divider, in single precision.
A `ChargeWatch` turns periodic samples into messages: each change of the charger, and the voltage
whenever it has moved far enough since it was last reported.
-/

namespace RingLog

namespace Battery

/-- The largest reading of the converter. -/
def fullScale : Float32 := 4095.0

/-- The voltage at the converter that gives the largest reading. -/
def reference : Float32 := 3.3

/-- The divider in front of the converter halves the battery voltage. -/
def divider : Float32 := 2.0

/-- The battery voltage for a reading, in whole millivolts. A negative reading counts as none, and
a voltage beyond sixteen bits as the largest that fits. -/
def millivolts (reading : Int32) : UInt16 :=
  let level := if reading < 0 then 0 else reading
  let volts := level.toFloat32 / fullScale * reference * divider
  (volts * 1000.0).toUInt16

end Battery

/-- What was last reported of charger and battery. A device starts off the charger. -/
structure ChargeWatch where
  charging : Bool := false
  reported : Option UInt16 := none
  deriving DecidableEq, Repr

namespace ChargeWatch

/-- The least change of the voltage that is reported, in millivolts. -/
def reportDelta : Nat := 50

/-- How far two voltages lie apart. -/
def apart (first second : UInt16) : Nat :=
  (first.toNat - second.toNat) + (second.toNat - first.toNat)

/-- True when a voltage is news. -/
def hasMoved (watch : ChargeWatch) (millivolts : UInt16) : Bool :=
  match watch.reported with
  | none => true
  | some last => reportDelta ≤ apart last millivolts

/-- Takes one sample: the messages it gives rise to, and the watch after it. -/
def sample (watch : ChargeWatch) (millivolts : UInt16) (charging : Bool) :
    List Message × ChargeWatch :=
  let edge := if charging = watch.charging then [] else [Message.chargingChanged charging]
  if watch.hasMoved millivolts then
    (edge ++ [.batteryMillivolts millivolts], ⟨charging, some millivolts⟩)
  else (edge, { watch with charging })

end ChargeWatch

end RingLog
