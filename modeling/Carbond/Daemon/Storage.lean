import Carbond.Cache.DeliveryProofs
import Carbond.Posix.Parts
import Carbond.Whisper.Write

/-! The writer with its disk: the loop over the points of a metric, with the calls of
`whisper_write_value` as they are made, and the operations of the daemon around it. -/
namespace Carbond.Daemon
open Heap Posix Text Cache
variable [Platform]

/-- The memory of the daemon and its disk. -/
abbrev Service := EStateM Fault (Memory × World Whisper.Globals)

/-- The name of the file comes from the metric. -/
def storeValue (conf : CarbonConf) (m : Addr) (timestamp : UInt32) (value : UInt64) : Service ℕ := do
  let metric ← onFirst (readMetric (some m))
  onFirst (Cache.whisperWriteValue m timestamp value)
  onSecond (Whisper.whisperWriteValue conf metric.name timestamp value)

/-- The results of the calls are not looked at. -/
def storeMetricLoop (conf : CarbonConf) (m : Addr) : ℕ → Option Addr → Service Unit
  | _, none => return ()
  | 0, some _ => throw .unfinished
  | steps + 1, some mtP => do
    let point ← onFirst (readPoint (some mtP))
    let _ ← storeValue conf m point.timestamp point.value
    onFirst (freePoint mtP)
    storeMetricLoop conf m steps point.next

/-- `write_metric` -/
def storeMetric (conf : CarbonConf) (m : Addr) : Service Unit := do
  let metric ← onFirst (readMetric (some m))
  let mem ← onFirst get
  storeMetricLoop conf m mem.points.next metric.points
  onFirst (Cache.storeMetric m fun metric => { metric with nbPoints := 0 })
  onFirst (Cache.storeMetric m fun metric => { metric with points := none })
  onFirst (Cache.storeMetric m fun metric => { metric with last := none })

/-- One turn of `writer_thread`. -/
def storeIteration (conf : CarbonConf) : Service Unit := do
  match ← onFirst findLargestMetric with
  | some maxM => storeMetric conf maxM
  | none => return ()

/-- What comes in stays in memory until a turn of the writer. -/
def serviceRun (conf : CarbonConf) : Operation → Service Unit
  | .line metricLine => onFirst (protocolProcessMetricLine metricLine)
  | .monitoring name timestamp value => onFirst (updateMonitoringMetric name timestamp value)
  | .write => storeIteration conf

def serviceRuns (conf : CarbonConf) : List Operation → Service Unit
  | [] => return ()
  | operation :: rest => do
    serviceRun conf operation
    serviceRuns conf rest

/-! ### What the disk sees -/

/-- The calls of `whisper_write_value`, for the metrics by name. -/
def storePoints (conf : CarbonConf) : List (CString × UInt32 × UInt64) → Whisper.Action Unit
  | [] => return ()
  | (name, timestamp, value) :: rest => do
    let _ ← Whisper.whisperWriteValue conf name timestamp value
    storePoints conf rest

theorem storePoints_append (conf : CarbonConf) (first second : List (CString × UInt32 × UInt64)) :
    storePoints conf (first ++ second) = storePoints conf first >>= fun _ => storePoints conf second := by
  induction first with
  | nil => rfl
  | cons call rest ih =>
    obtain ⟨name, timestamp, value⟩ := call
    simp only [List.cons_append, storePoints, ih, bind_assoc]

end Carbond.Daemon
