import Carbond.Cache.Database
import Carbond.Posix.Program

/-! The history of the points added: only `addPoint` makes an entry, as its last step, and the
writer makes none. This holds of any memory, also where a program stops. -/
namespace Carbond.Cache
open Heap Posix Text
variable {added : List (CString × UInt32 × UInt64)} {invariant : Memory → Prop}

/-- This is the history of the memory. -/
abbrev HasAdded (added : List (CString × UInt32 × UInt64)) (mem : Memory) : Prop := mem.added = added

/-! ### Single accesses -/

theorem readMetric_keeps (p : Option Addr) : Keeps invariant (readMetric p) := by
  cases p with
  | none => exact .throw _
  | some a =>
    apply Keeps.look
    intro mem _
    split
    · exact .throw _
    · exact .pure _

theorem readPoint_keeps (p : Option Addr) : Keeps invariant (readPoint p) := by
  cases p with
  | none => exact .throw _
  | some a =>
    apply Keeps.look
    intro mem _
    split
    · exact .throw _
    · exact .pure _

theorem storeMetric_added (a : Addr) (f : Metric → Metric) :
    Keeps (HasAdded added) (storeMetric a f) :=
  (readMetric_keeps _).bind fun _ => .change fun _ same => same

theorem storePoint_added (a : Addr) (f : MetricPoint → MetricPoint) :
    Keeps (HasAdded added) (storePoint a f) :=
  (readPoint_keeps _).bind fun _ => .change fun _ same => same

theorem freePoint_added (a : Addr) : Keeps (HasAdded added) (freePoint a) :=
  .change fun _ same => same

/-! ### Receiving -/

theorem getMetricLoop_keeps (mName : CString) (steps : ℕ) (cur : Option Addr) :
    Keeps invariant (getMetricLoop mName steps cur) := by
  induction steps generalizing cur with
  | zero =>
    cases cur with
    | none => exact .pure _
    | some curM => exact .throw _
  | succ steps ih =>
    cases cur with
    | none => exact .pure _
    | some curM =>
      apply (readMetric_keeps _).bind
      intro m
      split
      · exact .pure _
      · exact ih m.next

theorem addDatabaseMetric_added (newMetric : Addr) :
    Keeps (HasAdded added) (addDatabaseMetric newMetric) := by
  apply Keeps.look
  intro mem _
  cases mem.db.last with
  | none => exact .bind (.change fun _ same => same) fun _ => .change fun _ same => same
  | some last => exact (storeMetric_added _ _).bind fun _ => .change fun _ same => same

theorem relatedMetric_added (name : CString) : Keeps (HasAdded added) (relatedMetric name) := by
  have searched : Keeps (HasAdded added) (getMetric name) :=
    .look fun mem _ => getMetricLoop_keeps _ _ _
  apply searched.bind
  intro found
  cases found with
  | some metric => exact .pure _
  | none =>
    have created : Keeps (HasAdded added) (createNewMetric name) := by
      apply Keeps.look
      intro mem same
      refine .bind (.store ?_) fun _ => .pure _
      exact same
    exact created.bind fun metric => (addDatabaseMetric_added metric).bind fun _ => .pure _

theorem createNewMetricPoint_added (timestamp : UInt32) (value : UInt64) :
    Keeps (HasAdded added) (createNewMetricPoint timestamp value) := by
  apply Keeps.look
  intro mem same
  refine .bind (.store ?_) fun _ => .pure _
  exact same

theorem addDatabaseMetricPoint_added (m newPoint : Addr) :
    Keeps (HasAdded added) (addDatabaseMetricPoint m newPoint) := by
  apply (readMetric_keeps _).bind
  intro metric
  have counted : Keeps (HasAdded added) (do
      storeMetric m fun metric => { metric with last := some newPoint }
      storeMetric m fun metric => { metric with nbPoints := metric.nbPoints + 1 }) :=
    (storeMetric_added _ _).bind fun _ => storeMetric_added _ _
  cases metric.last with
  | none => exact (storeMetric_added _ _).bind fun _ => counted
  | some last => exact (storePoint_added _ _).bind fun _ => counted

/-- The entry is made where the program returns, and only there. -/
theorem addPoint_added (name : CString) (timestamp : UInt32) (value : UInt64) (mem : Memory) :
    Ends mem (addPoint name timestamp value)
      (fun _ => HasAdded (mem.added ++ [(name, timestamp, value)]))
      (fun _ => HasAdded mem.added) := by
  apply Ends.bind (relatedMetric_added name mem rfl)
  intro metric mem₁ same
  apply Ends.bind (createNewMetricPoint_added timestamp value mem₁ same)
  intro point mem₂ same
  apply Ends.bind (addDatabaseMetricPoint_added metric point mem₂ same)
  intro _ mem₃ same
  exact .of_yields (.update _ _) (congrArg (· ++ [(name, timestamp, value)]) same)

/-! ### Writing -/

theorem whisperWriteValue_added (m : Addr) (timestamp : UInt32) (value : UInt64) :
    Keeps (HasAdded added) (whisperWriteValue m timestamp value) :=
  (readMetric_keeps _).bind fun _ => .change fun _ same => same

theorem findLargestMetricLoop_keeps (steps : ℕ) (cur maxM : Option Addr) (maxNbPoints : UInt32) :
    Keeps invariant (findLargestMetricLoop steps cur maxM maxNbPoints) := by
  induction steps generalizing cur maxM maxNbPoints with
  | zero =>
    cases cur with
    | none => exact .pure _
    | some curM => exact .throw _
  | succ steps ih =>
    cases cur with
    | none => exact .pure _
    | some curM =>
      apply (readMetric_keeps _).bind
      intro m
      split
      · exact ih _ _ _
      · exact ih _ _ _

theorem findLargestMetric_keeps : Keeps invariant findLargestMetric :=
  .look fun _ _ => findLargestMetricLoop_keeps _ _ _ _

end Carbond.Cache
