import Carbond.Cache.Database
import Carbond.Transition.Runs

/-! The threads that find or create metrics, each with its own statements and none with a lock. The
points of a metric are left out: adding them touches neither a name nor a link. -/
namespace Carbond.Cache.Feeders
open Heap Text

inductive Feeder where
  | receiverUdp
  | receiverTcp
  | monitoring
  deriving DecidableEq

/-- What a feeder does next: the loop of `get_metric`, then `create_new_metric` and
`add_database_metric`. -/
inductive Pc where
  | idle
  | readFirst (mName : CString)
  | compare (mName : CString) (curM : Option Addr)
  | advance (mName : CString) (curM : Addr)
  | create (mName : CString)
  | testLast (mName : CString) (newMetric : Addr)
  | storeFirst (mName : CString) (newMetric : Addr)
  | readLast (mName : CString) (newMetric : Addr)
  | storeNext (mName : CString) (newMetric last : Addr)
  | storeLast (newMetric : Addr)
  deriving DecidableEq

/-- `completed` records the metrics whose `add_database_metric` has returned. -/
structure Shared where
  metrics : Cells Metric
  db : MetricsDatabase
  completed : List Addr

structure State where
  shared : Shared
  pcs : Feeder → Pc

def start : State where
  shared := ⟨.empty, databaseInit, []⟩
  pcs _ := .idle

/-- One read, comparison or store of a feeder. It may look for any name. -/
inductive FeederStep (shared : Shared) : Pc → Shared → Pc → Prop
  | begin (mName) : FeederStep shared .idle shared (.readFirst mName)
  | readFirst : FeederStep shared (.readFirst mName) shared (.compare mName shared.db.first)
  | found : shared.metrics.cells curM = some m → sameName mName m.name = true →
      FeederStep shared (.compare mName (some curM)) shared .idle
  | different : shared.metrics.cells curM = some m → sameName mName m.name = false →
      FeederStep shared (.compare mName (some curM)) shared (.advance mName curM)
  | advance : shared.metrics.cells curM = some m →
      FeederStep shared (.advance mName curM) shared (.compare mName m.next)
  | missing : FeederStep shared (.compare mName none) shared (.create mName)
  | create : FeederStep shared (.create mName)
      { shared with metrics := shared.metrics.alloc ⟨mName, 0, none, none, none⟩ }
      (.testLast mName shared.metrics.next)
  | noMetric : shared.db.last = none →
      FeederStep shared (.testLast mName newMetric) shared (.storeFirst mName newMetric)
  | someMetric : shared.db.last = some last →
      FeederStep shared (.testLast mName newMetric) shared (.readLast mName newMetric)
  | storeFirst : FeederStep shared (.storeFirst mName newMetric)
      { shared with db := { shared.db with first := some newMetric } } (.storeLast newMetric)
  | readLast : shared.db.last = some last →
      FeederStep shared (.readLast mName newMetric) shared (.storeNext mName newMetric last)
  | storeNext : FeederStep shared (.storeNext mName newMetric last)
      { shared with
        metrics := shared.metrics.modify last fun m => { m with next := some newMetric } }
      (.storeLast newMetric)
  | storeLast : FeederStep shared (.storeLast newMetric)
      { shared with
        db := { shared.db with last := some newMetric }
        completed := shared.completed ++ [newMetric] }
      .idle

inductive Step : State → State → Prop
  | feeder (feeder) : FeederStep state.shared (state.pcs feeder) shared pc →
      Step state ⟨shared, Function.update state.pcs feeder pc⟩

/-- No name twice in the database, and no metric that was added missing from it. -/
structure Sound (shared : Shared) : Prop where
  unique : Linked shared.metrics Metric.next shared.db.first a →
    Linked shared.metrics Metric.next shared.db.first b →
    shared.metrics.cells a = some m → shared.metrics.cells b = some m' → m.name = m'.name → a = b
  reachable : ∀ a ∈ shared.completed, Linked shared.metrics Metric.next shared.db.first a

/-- The name that a feeder has looked for in vain and has not linked yet. -/
def Pc.unlinked : Pc → Option CString
  | .compare mName none => some mName
  | .create mName => some mName
  | .testLast mName _ => some mName
  | .storeFirst mName _ => some mName
  | .readLast mName _ => some mName
  | .storeNext mName _ _ => some mName
  | _ => none

/-- The next statement links a metric, where there is nothing linked yet. -/
def Pc.Links (shared : Shared) (mName : CString) : Pc → Prop
  | .storeFirst mName' _ => mName' = mName ∧ shared.db.first = none
  | .storeNext mName' _ last => mName' = mName ∧
      ∀ m, shared.metrics.cells last = some m → m.next = none
  | _ => False

def Pc.linking : Pc → Bool
  | .storeFirst _ _ => true
  | .storeNext _ _ _ => true
  | _ => false

/-- A store that links a metric overwrites no link, and no other feeder has looked for the same
name in vain and not linked it yet. -/
def Guarded (state next : State) : Prop :=
  ∀ feeder, (state.pcs feeder).linking = true → next.pcs feeder ≠ state.pcs feeder →
    ∃ mName, (state.pcs feeder).Links state.shared mName ∧
      ∀ other, other ≠ feeder → (state.pcs other).unlinked ≠ some mName

end Carbond.Cache.Feeders
