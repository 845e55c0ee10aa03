import Carbond.Common
import Carbond.Heap.Segment
import Carbond.Text.Scan

/-! The database: the metrics received, each with its points that are not on disk yet. Lines and
monitoring values append to it; the writer empties its largest metric. -/
namespace Carbond.Cache
open Heap Posix Text

abbrev Addr := ℕ

structure MetricPoint where
  timestamp : UInt32
  value : UInt64
  next : Option Addr
  deriving DecidableEq, Repr

/-- The lock is left out: operations are executed one after the other here. -/
structure Metric where
  name : CString
  nbPoints : UInt32
  points : Option Addr
  last : Option Addr
  next : Option Addr
  deriving DecidableEq, Repr

structure MetricsDatabase where
  first : Option Addr
  last : Option Addr
  deriving DecidableEq, Repr

/-- The memory of the daemon, with the history of the points added under each name and of those
passed to `whisper_write_value`. -/
structure Memory where
  metrics : Cells Metric
  points : Cells MetricPoint
  db : MetricsDatabase
  added : List (CString × UInt32 × UInt64)
  handed : List (CString × UInt32 × UInt64)

abbrev Step := EStateM Fault Memory

def databaseInit : MetricsDatabase := ⟨none, none⟩

def emptyMemory : Memory := ⟨.empty, .empty, databaseInit, [], []⟩

/-! ### Access through pointers -/

def readMetric : Option Addr → Step Metric
  | none => throw .nullDereference
  | some a => do
    match (← get).metrics.cells a with
    | none => throw .useAfterFree
    | some m => return m

def readPoint : Option Addr → Step MetricPoint
  | none => throw .nullDereference
  | some a => do
    match (← get).points.cells a with
    | none => throw .useAfterFree
    | some p => return p

def storeMetric (a : Addr) (f : Metric → Metric) : Step Unit := do
  let _ ← readMetric (some a)
  modify fun mem => { mem with metrics := mem.metrics.modify a f }

def storePoint (a : Addr) (f : MetricPoint → MetricPoint) : Step Unit := do
  let _ ← readPoint (some a)
  modify fun mem => { mem with points := mem.points.modify a f }

/-! ### Receiving -/

/-- `strlen` first, then `strncmp` up to the terminating NUL. -/
def sameName (mName name : CString) : Bool :=
  mName.length = name.length ∧ name.take (mName.length + 1) = mName.take (mName.length + 1)

def getMetricLoop (mName : CString) : Nat → Option Addr → Step (Option Addr)
  | _, none => return none
  | 0, some _ => throw .unfinished
  | steps + 1, some curM => do
    let m ← readMetric (some curM)
    if sameName mName m.name then return some curM
    else getMetricLoop mName steps m.next

def getMetric (mName : CString) : Step (Option Addr) := do
  let mem ← get
  getMetricLoop mName mem.metrics.next mem.db.first

def addDatabaseMetricPoint (m newPoint : Addr) : Step Unit := do
  match (← readMetric (some m)).last with
  | none => storeMetric m fun metric => { metric with points := some newPoint }
  | some last => storePoint last fun point => { point with next := some newPoint }
  storeMetric m fun metric => { metric with last := some newPoint }
  storeMetric m fun metric => { metric with nbPoints := metric.nbPoints + 1 }

def addDatabaseMetric (newMetric : Addr) : Step Unit := do
  match (← get).db.last with
  | none => modify fun mem => { mem with db := { mem.db with first := some newMetric } }
  | some last => storeMetric last fun metric => { metric with next := some newMetric }
  modify fun mem => { mem with db := { mem.db with last := some newMetric } }

def createNewMetricPoint (timestamp : UInt32) (value : UInt64) : Step Addr := do
  let mem ← get
  set { mem with points := mem.points.alloc ⟨timestamp, value, none⟩ }
  return mem.points.next

def createNewMetric (name : CString) : Step Addr := do
  let mem ← get
  set { mem with metrics := mem.metrics.alloc ⟨name, 0, none, none, none⟩ }
  return mem.metrics.next

/-- The metric of this name, which is added if it does not exist yet. -/
def relatedMetric (name : CString) : Step Addr := do
  match ← getMetric name with
  | some metric => return metric
  | none =>
    let metric ← createNewMetric name
    addDatabaseMetric metric
    return metric

/-- What the line protocol and the monitoring both do with a value. -/
def addPoint (name : CString) (timestamp : UInt32) (value : UInt64) : Step Unit := do
  let metric ← relatedMetric name
  let point ← createNewMetricPoint timestamp value
  addDatabaseMetricPoint metric point
  modify fun mem => { mem with added := mem.added ++ [(name, timestamp, value)] }

def updateMonitoringMetric (name : CString) (timestamp : UInt32) (value : UInt64) : Step Unit :=
  addPoint name timestamp value

/-- What `sscanf` leaves in the variables, and how many of them it has set. -/
structure Scanned where
  metricName : CString
  value : UInt64
  timestamp : UInt32
  conversions : Nat

/-- `sscanf(metric_line, "%s %lf %u", metric_name, &value, &timestamp)` -/
def scanMetricLine [Platform] (metricLine : CString) : Scanned :=
  match scanWord metricLine with
  | none => ⟨Platform.uninitialised, 0, 0, 0⟩
  | some (metricName, rest) =>
    match scanDouble rest with
    | none => ⟨metricName, 0, 0, 1⟩
    | some (number, rest) =>
      match scanUnsigned rest with
      | none => ⟨metricName, Platform.strtod number, 0, 2⟩
      | some (timestamp, _) => ⟨metricName, Platform.strtod number, timestamp, 3⟩

def protocolProcessMetricLine [Platform] (metricLine : CString) : Step Unit := do
  let line := scanMetricLine metricLine
  -- The name and its NUL are written to a buffer of this size.
  if line.conversions ≠ 0 ∧ metricNameMaxLen ≤ line.metricName.length then throw .bufferOverrun
  else addPoint line.metricName line.timestamp line.value

def protocolProcessMetricLines [Platform] : List CString → Step Unit
  | [] => return ()
  | curLine :: rest => do
    protocolProcessMetricLine curLine
    protocolProcessMetricLines rest

def protocolProcessMetricsMultiline [Platform] (metricsMultiline : CString) : Step Unit :=
  protocolProcessMetricLines (strtok '\n' metricsMultiline)

/-! ### Writing -/

/-- The call as it is made; what it does to the file is not part of this memory. -/
def whisperWriteValue (m : Addr) (timestamp : UInt32) (value : UInt64) : Step Unit := do
  let metric ← readMetric (some m)
  modify fun mem => { mem with handed := mem.handed ++ [(metric.name, timestamp, value)] }

def freePoint (a : Addr) : Step Unit :=
  modify fun mem => { mem with points := mem.points.free a }

def writeMetricLoop (m : Addr) : Nat → Option Addr → Step Unit
  | _, none => return ()
  | 0, some _ => throw .unfinished
  | steps + 1, some mtP => do
    let point ← readPoint (some mtP)
    whisperWriteValue m point.timestamp point.value
    freePoint mtP
    writeMetricLoop m steps point.next

def writeMetric (m : Addr) : Step Unit := do
  let mtP := (← readMetric (some m)).points
  writeMetricLoop m (← get).points.next mtP
  storeMetric m fun metric => { metric with nbPoints := 0 }
  storeMetric m fun metric => { metric with points := none }
  storeMetric m fun metric => { metric with last := none }

def findLargestMetricLoop : Nat → Option Addr → Option Addr → UInt32 → Step (Option Addr)
  | _, none, maxM, _ => return maxM
  | 0, some _, _, _ => throw .unfinished
  | steps + 1, some curM, maxM, maxNbPoints => do
    let m ← readMetric (some curM)
    if m.nbPoints > maxNbPoints then findLargestMetricLoop steps m.next (some curM) m.nbPoints
    else findLargestMetricLoop steps m.next maxM maxNbPoints

def findLargestMetric : Step (Option Addr) := do
  let mem ← get
  findLargestMetricLoop mem.metrics.next mem.db.first none 0

/-- One turn of the writer's loop, which sleeps when there is nothing to write. -/
def writerIteration : Step Unit := do
  match ← findLargestMetric with
  | some maxM => writeMetric maxM
  | none => return ()

end Carbond.Cache
