import Carbond.Posix.Calls
import Carbond.Text.CString

/-! Data types of the daemon, and what it takes from its platform. Configuration lists keep
the order of the linked lists they stand for. -/
namespace Carbond
open Text

-- A statement about the members of a list is decided along the list, also where all values of
-- the type could be tried.
instance (priority := 2000) decideForallMem (p : α → Prop) [DecidablePred p] (list : List α) :
    Decidable (∀ x ∈ list, p x) := List.decidableBAll p list

instance (priority := 2000) decideExistsMem (p : α → Prop) [DecidablePred p] (list : List α) :
    Decidable (∃ x ∈ list, p x) := List.decidableBEx p list

def metricNameMaxLen : Nat := 100

structure Retention where
  timePerPoint : UInt32
  timeToStore : UInt32
  deriving DecidableEq, Repr

structure PatternRetention where
  strPattern : CString
  strRetention : Option CString
  retentionList : List Retention
  deriving DecidableEq, Repr

inductive AggregationType where
  | undef
  | average
  | sum
  | last
  | max
  | min
  deriving DecidableEq, Repr

/-- The value of the C enumeration constant. -/
def AggregationType.code : AggregationType → UInt32
  | .undef => 0
  | .average => 1
  | .sum => 2
  | .last => 3
  | .max => 4
  | .min => 5

/-- `xff` is the bit pattern of a float. -/
structure PatternAggregation where
  pattern : CString
  xff : UInt32
  method : AggregationType
  deriving DecidableEq, Repr

inductive LogLevel where
  | quiet
  | error
  | warning
  | info
  | verbose
  | debug
  deriving DecidableEq, Repr

structure CarbonConf where
  schema : List PatternRetention
  aggregation : List PatternAggregation
  confDir : CString
  confFile : CString
  storageDir : CString
  lineReceiverPort : Int32
  udpReceiverPort : Int32
  run : Bool
  tracing : Bool
  logLevel : LogLevel
  deriving DecidableEq

/-- What `pcre_compile` and then `pcre_exec` answer. -/
inductive PcreResult where
  | compilationFailed
  | executed (rc : Int32)
  deriving DecidableEq

/-- What is not the daemon's own code: regular expressions, floating point on bit patterns,
and what memory holds that nobody has written. -/
class Platform where
  pcre : CString → CString → PcreResult
  /-- Addition of doubles. -/
  add : UInt64 → UInt64 → UInt64
  /-- A double divided by a count. -/
  divide : UInt64 → UInt32 → UInt64
  /-- Whether a count is at least a float. -/
  atLeast : UInt32 → UInt32 → Bool
  strtod : CString → UInt64
  strtof : CString → UInt32
  uninitialised : CString
  /-- The points found past the end of a block of memory. -/
  stray : Nat → UInt32 × UInt64

/-- A platform to run examples on: every pattern matches, and all numbers are zero. -/
@[reducible] def matchesAll : Platform where
  pcre _ _ := .executed 1
  add a _ := a
  divide a _ := a
  atLeast _ _ := true
  strtod _ := 0
  strtof _ := 0
  uninitialised := []
  stray _ := (0, 0)

end Carbond
