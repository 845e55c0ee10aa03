import Carbond.Daemon.Storage
import Carbond.Ieee.Format

/-! The monitoring of the daemon: once a second the number of points written to the disk since the
last time becomes a point of a metric of its own. -/
namespace Carbond.Daemon
open Heap Posix Text Cache

/-- An unsigned integer as a double. -/
def doubleOf (n : UInt32) : UInt64 := UInt64.ofNat (Ieee.double.ofNat n.toNat)

def monitoringName : CString := "carbond.points".toList

/-- One turn of `monitoring_worker`, at this time. -/
def updateMonitoringMetrics (timestamp : UInt32) : Service Unit := do
  let w ← onSecond get
  onFirst (updateMonitoringMetric monitoringName timestamp (doubleOf w.globals.points))
  onSecond (modify fun w => w.withGlobals { w.globals with points := 0 })

/-- What the threads of the daemon do. -/
inductive Turn where
  | receive (metricLine : CString)
  | monitor (timestamp : UInt32)
  | write

variable [Platform]

def turnRun (conf : CarbonConf) : Turn → Service Unit
  | .receive metricLine => onFirst (protocolProcessMetricLine metricLine)
  | .monitor timestamp => updateMonitoringMetrics timestamp
  | .write => storeIteration conf

def turnRuns (conf : CarbonConf) : List Turn → Service Unit
  | [] => return ()
  | turn :: rest => do
    turnRun conf turn
    turnRuns conf rest

end Carbond.Daemon
