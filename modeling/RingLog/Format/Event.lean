/-!
# The events a device knows

An `Occurrence` carries no data beside the fact that it happened; a `Quantity` is something the
device measures, and each sample of it is sixteen bits wide. Records store both by code, and a
code beyond the catalogue is kept as a bare number.

Main statements: `Occurrence.ofCode?_code` and `Quantity.ofCode?_code`, every catalogued event is
found again under its code.
-/

namespace RingLog

/-- Something that happened to the device. -/
inductive Occurrence where
  | coldStart
  | softwareReset
  | watchdogReset
  | bleConnect
  | bleDisconnect
  | chargeStart
  | chargeStop
  | dfuStart
  | dfuStop
  deriving DecidableEq, Repr

namespace Occurrence

/-- The catalogue, in the order of the codes. -/
def all : List Occurrence :=
  [coldStart, softwareReset, watchdogReset, bleConnect, bleDisconnect, chargeStart, chargeStop,
    dfuStart, dfuStop]

/-- The number a record stores for the occurrence. -/
def code : Occurrence → UInt32
  | coldStart => 0
  | softwareReset => 1
  | watchdogReset => 2
  | bleConnect => 3
  | bleDisconnect => 4
  | chargeStart => 5
  | chargeStop => 6
  | dfuStart => 7
  | dfuStop => 8

/-- The occurrence with the given code, if the catalogue has one. -/
def ofCode? (code : UInt32) : Option Occurrence :=
  all[code.toNat]?

/-- The name a report gives the occurrence. -/
def name : Occurrence → String
  | coldStart => "cold-start"
  | softwareReset => "software-reset"
  | watchdogReset => "wdt-reset"
  | bleConnect => "ble-connect"
  | bleDisconnect => "ble-disconnect"
  | chargeStart => "charge-start"
  | chargeStop => "charge-stop"
  | dfuStart => "dfu-start"
  | dfuStop => "dfu-stop"

theorem ofCode?_code (occurrence : Occurrence) :
    ofCode? occurrence.code = some occurrence := by
  cases occurrence <;> rfl

end Occurrence

/-- Something the device measures. -/
inductive Quantity where
  /-- Battery voltage in millivolts. -/
  | batteryVoltage
  /-- Accelerometer: a four-bit sample number above a twelve-bit value. -/
  | acceleration
  /-- Die temperature in tenths of a degree Celsius, in two's complement. -/
  | temperature
  /-- Steps counted today. -/
  | steps
  deriving DecidableEq, Repr

namespace Quantity

/-- The catalogue, in the order of the codes. -/
def all : List Quantity :=
  [batteryVoltage, acceleration, temperature, steps]

/-- The number a record stores for the quantity. -/
def code : Quantity → UInt8
  | batteryVoltage => 0
  | acceleration => 1
  | temperature => 2
  | steps => 3

/-- The quantity with the given code, if the catalogue has one. -/
def ofCode? (code : UInt8) : Option Quantity :=
  all[code.toNat]?

/-- The name a report gives the quantity. -/
def name : Quantity → String
  | batteryVoltage => "vcc-mv"
  | acceleration => "acc"
  | temperature => "temp-decidegc"
  | steps => "steps"

/-- The number a sample stands for: temperatures are signed, all other samples are not. -/
def value (quantity : Quantity) (sample : UInt16) : Int :=
  match quantity with
  | temperature => Int.bmod sample.toNat 65536
  | _ => sample.toNat

theorem ofCode?_code (quantity : Quantity) : ofCode? quantity.code = some quantity := by
  cases quantity <;> rfl

end Quantity

end RingLog
