import Std.Time.DateTime.Timestamp
import RingLog.Device.Simulation

/-!
# The simulation as a program

Reads the clock once, runs the simulated device and prints its notices and its log.
-/

open RingLog in
/-- Runs the simulation at the present time. -/
def main : IO UInt32 := do
  let now ← Std.Time.Timestamp.now
  match Simulation.run ⟨now.toNanosecondsSinceUnixEpoch.toInt.toNat⟩ with
  | .ok station =>
    for line in Simulation.output station do
      IO.println line
    return 0
  | .error fault =>
    IO.eprintln ("Error: " ++ fault.message)
    return 1
