import RingLog.Main
import RingLog.Console.Command
import RingLog.Time.Clock
import RingLog.Ring.Banked
import RingLog.Proofs.Ring.Lap
import RingLog.Proofs.Ring.Banked
import RingLog.Proofs.Log.OnRing
import RingLog.Proofs.Log.Recovery
import RingLog.Proofs.Log.Entries
import RingLog.Proofs.Log.Interruption
import RingLog.Proofs.Log.History
import RingLog.Proofs.Log.Walk
import RingLog.Proofs.Log.Refinement
import RingLog.Proofs.Log.Leaves
import RingLog.Proofs.Log.Recording
import RingLog.Proofs.Log.Standing
import RingLog.Proofs.Log.Reader
import RingLog.Proofs.Log.Dating
import RingLog.Proofs.Log.Erasure
import RingLog.Proofs.Log.Positions
import RingLog.Proofs.Log.Latch
import RingLog.Proofs.Log.Headroom
import RingLog.Proofs.Log.Places
import RingLog.Proofs.Console.Session
import RingLog.Proofs.Device.Requests
import RingLog.Proofs.Log.Frontier
import RingLog.Proofs.Log.Trail
import RingLog.Proofs.Device.Shutdown
import RingLog.Proofs.Log.Stray
import RingLog.Proofs.Console.Drain
import RingLog.Proofs.Format.Codec
import RingLog.Proofs.Log.Tearing
import RingLog.Proofs.Log.Renewal
import RingLog.Proofs.Log.Wear
import RingLog.Proofs.Log.Reserve
import RingLog.Proofs.Log.FirstRecord
import RingLog.Proofs.Log.FirstBoot
import RingLog.Proofs.Log.Acceptance
import RingLog.Proofs.Device.ChargeReports
import RingLog.Proofs.Device.Serving
import RingLog.Proofs.Media.Standing
import RingLog.Proofs.Console.Wording
