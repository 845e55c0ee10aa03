import Carbond.Cache.Database
import Carbond.Transition.Runs

/-! One metric between a receiver, which appends points to it, and the writer, which takes them
all. Only the writer locks the metric. -/
namespace Carbond.Cache.Handover
open Heap

/-- What the receiver does next in `add_database_metric_point`. -/
inductive ReceiverPc where
  | idle
  | testLast (newPoint : Addr)
  | storePoints (newPoint : Addr)
  | readLast (newPoint : Addr)
  | storeNext (newPoint last : Addr)
  | storeLast (newPoint : Addr)
  | increment (newPoint : Addr)
  deriving DecidableEq

/-- What the writer does next in `write_metric`. -/
inductive WriterPc where
  | idle
  | lock (mtP : Option Addr)
  | loop (mtP : Option Addr)
  | write (mtP : Addr) (mtPNext : Option Addr)
  | free (mtP : Addr) (mtPNext : Option Addr)
  | resetNbPoints
  | resetPoints
  | resetLast
  | unlock
  deriving DecidableEq

/-- A freed point is marked and keeps its link, so that one can still say what it led to. The other
lists record the points whose insertion has completed and those passed to `whisper_write_value`,
and `strayStore` whether an insertion has stored into a freed point. -/
structure State where
  metric : Metric
  locked : Bool
  points : Cells MetricPoint
  receiver : ReceiverPc
  writer : WriterPc
  completed : List Addr
  handed : List Addr
  freed : List Addr
  strayStore : Bool

/-- A metric without points, and nothing going on. -/
def start (name : Text.CString) : State where
  metric := ⟨name, 0, none, none, none⟩
  locked := false
  points := .empty
  receiver := .idle
  writer := .idle
  completed := []
  handed := []
  freed := []
  strayStore := false

/-- One read or store of the receiver. Where it would dereference NULL it has no step. -/
inductive ReceiverStep (state : State) : State → Prop
  | create (timestamp value) : state.receiver = .idle →
      ReceiverStep state { state with
        points := state.points.alloc ⟨timestamp, value, none⟩
        receiver := .testLast state.points.next }
  | noPoints : state.receiver = .testLast newPoint → state.metric.last = none →
      ReceiverStep state { state with receiver := .storePoints newPoint }
  | somePoints : state.receiver = .testLast newPoint → state.metric.last = some last →
      ReceiverStep state { state with receiver := .readLast newPoint }
  | storePoints : state.receiver = .storePoints newPoint →
      ReceiverStep state { state with
        metric := { state.metric with points := some newPoint }
        receiver := .storeLast newPoint }
  | readLast : state.receiver = .readLast newPoint → state.metric.last = some last →
      ReceiverStep state { state with receiver := .storeNext newPoint last }
  | storeNext : state.receiver = .storeNext newPoint last →
      ReceiverStep state { state with
        points := state.points.modify last fun point => { point with next := some newPoint }
        strayStore := state.strayStore || decide (last ∈ state.freed)
        receiver := .storeLast newPoint }
  | storeLast : state.receiver = .storeLast newPoint →
      ReceiverStep state { state with
        metric := { state.metric with last := some newPoint }
        receiver := .increment newPoint }
  | increment : state.receiver = .increment newPoint →
      ReceiverStep state { state with
        metric := { state.metric with nbPoints := state.metric.nbPoints + 1 }
        completed := state.completed ++ [newPoint]
        receiver := .idle }

/-- One read or store of the writer. -/
inductive WriterStep (state : State) : State → Prop
  | readPoints : state.writer = .idle →
      WriterStep state { state with writer := .lock state.metric.points }
  | lock : state.writer = .lock mtP → state.locked = false →
      WriterStep state { state with locked := true, writer := .loop mtP }
  | readNext : state.writer = .loop (some mtP) → state.points.cells mtP = some point →
      WriterStep state { state with writer := .write mtP point.next }
  | leave : state.writer = .loop none → WriterStep state { state with writer := .resetNbPoints }
  | write : state.writer = .write mtP mtPNext →
      WriterStep state { state with handed := state.handed ++ [mtP], writer := .free mtP mtPNext }
  | free : state.writer = .free mtP mtPNext →
      WriterStep state { state with freed := state.freed ++ [mtP], writer := .loop mtPNext }
  | resetNbPoints : state.writer = .resetNbPoints →
      WriterStep state { state with
        metric := { state.metric with nbPoints := 0 }
        writer := .resetPoints }
  | resetPoints : state.writer = .resetPoints →
      WriterStep state { state with
        metric := { state.metric with points := none }
        writer := .resetLast }
  | resetLast : state.writer = .resetLast →
      WriterStep state { state with
        metric := { state.metric with last := none }
        writer := .unlock }
  | unlock : state.writer = .unlock →
      WriterStep state { state with locked := false, writer := .idle }

inductive Step : State → State → Prop
  | receiver : ReceiverStep state next → Step state next
  | writer : WriterStep state next → Step state next

/-- Each point that was inserted is still there or was passed on once, and none was written to
after it was freed. -/
structure Kept (state : State) : Prop where
  points : ∀ a ∈ state.completed,
    Linked state.points MetricPoint.next state.metric.points a ∧ a ∉ state.handed ∨
      state.handed.count a = 1
  freed : state.strayStore = false

/-- The writer has read `m->points` and not reset it yet. -/
def WriterPc.draining : WriterPc → Bool
  | .lock _ | .loop _ | .write _ _ | .free _ _ | .resetNbPoints | .resetPoints => true
  | _ => false

/-- The writer has read the link of this point and not freed it yet. -/
def WriterPc.Past (a : Addr) : WriterPc → Prop
  | .write mtP _ => mtP = a
  | .free mtP _ => mtP = a
  | _ => False

/-- The first point is stored into an empty metric that the writer is not draining, a later one
behind a point whose link the writer has yet to read. -/
structure Guarded (state next : State) : Prop where
  first : state.receiver = .storePoints newPoint → next.receiver ≠ state.receiver →
    state.metric.points = none ∧ state.writer.draining = false
  behind : state.receiver = .storeNext newPoint last → next.receiver ≠ state.receiver →
    last ∉ state.freed ∧ ¬ state.writer.Past last

end Carbond.Cache.Handover
