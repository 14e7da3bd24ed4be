import RingLog.Console.Report
import RingLog.Device.Battery
import RingLog.Device.Station

/-!
# A simulated device

A short life of a device whose log lies in working memory: it is switched on, a charger is plugged
in and out around a radio connection, and the step counter is recorded until the page runs into its
reserve, so that the log asks for a rotation ahead of the shutdown. The system task then works
through the mailbox.
-/

namespace RingLog

namespace Simulation

/-- Charger and radio events, as messages to the system task. -/
def story : List Message :=
  let (plugged, watch) := ChargeWatch.sample {} 3850 true
  let (higher, watch) := watch.sample 4120 true
  let (unplugged, _) := watch.sample 4180 false
  plugged ++ [.bleConnected] ++ higher ++ [.bleDisconnected] ++ unplugged

/-- Step counts enough to reach the reserve of the first page. -/
def stepCounts : List UInt16 :=
  (List.range (Geometry.ram.pageSize - ({} : Config).reserve.toNat)).map UInt16.ofNat

/-- The whole life, at one moment. -/
def run (now : Instant) : Except ConfigFault (Station Geometry.ram) := do
  let station ← Station.powerUp { medium := Medium.blank Geometry.ram } now
  let station := story.foldl Station.post station
  let station := stepCounts.foldl
    (fun station count => station.perform now (.measured .steps count)) station
  let (messages, station) := (station.post .shutdown).takeMail
  return station.serve (messages.map fun message => (now, message))

/-- The last notice: where the log stands. -/
def summary {g : Geometry} (log : Log g) : Notice :=
  .summary log.page.number log.page.slot log.dropped

/-- What the simulation prints: its notices, the log and the summary. -/
def output {g : Geometry} (station : Station g) : List String :=
  (Notice.simulationStarting :: station.notices).map Notice.line ++
    station.log.entries.map Entry.explained ++ [(summary station.log).line]

end Simulation

end RingLog
