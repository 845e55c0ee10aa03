import Carbond.Cache.WriterProofs

/-! Whole runs of the database: lines and monitoring values come in, the writer takes points out,
and no point is lost, repeated or out of order. -/
namespace Carbond.Cache
open Heap Posix Text Fifo
variable {mem : Memory} {entries : List Entry}

/-- The lists are sound, and every point added was handed on or still waits, in order. -/
structure Integrity (mem : Memory) (entries : List Entry) : Prop where
  stands : Stands mem entries
  delivered : Delivered mem.added mem.handed (cachedUnder entries)

theorem integrity_empty : Integrity emptyMemory [] := ⟨stands_empty, .start⟩

theorem Integrity.addPoint (integrity : Integrity mem entries) (name : CString)
    (timestamp : UInt32) (value : UInt64) :
    ∃ mem' entries', Yields (addPoint name timestamp value) mem () mem' ∧
      Integrity mem' entries' ∧ mem'.added = mem.added ++ [(name, timestamp, value)] := by
  obtain ⟨mem', entries', run, stands, cached, _, added, handed⟩ :=
    addPoint_yields integrity.stands name timestamp value
  refine ⟨mem', entries', run, ⟨stands, ?_⟩, added⟩
  rw [cached, added, handed]
  exact integrity.delivered.receive name (timestamp, value)

theorem Integrity.write (integrity : Integrity mem entries) :
    ∃ mem' entries', Yields writerIteration mem () mem' ∧ Integrity mem' entries' ∧
      mem'.added = mem.added := by
  obtain ⟨found, search, result⟩ := findLargestMetric_yields integrity.stands
  obtain ⟨rfl, _⟩ | ⟨before, e, after, rfl, rfl, _⟩ := result
  · exact ⟨mem, entries, .bind search (.pure _ _), integrity, rfl⟩
  · obtain ⟨mem', e', run, stands, name, cached, added, handed⟩ := writeMetric_yields integrity.stands
    refine ⟨mem', before ++ e' :: after, .bind search run, ⟨stands, ?_⟩, added⟩
    have names := integrity.stands.names
    rw [cachedUnder_replaced names name, cached, added, handed, ← cachedUnder_self names]
    exact integrity.delivered.hand e.metric.name

section
variable [Platform]

/-- The name of a line, with its NUL, fits into the buffer it is read into. -/
def NameFits (metricLine : CString) : Prop :=
  ¬ ((scanMetricLine metricLine).conversions ≠ 0 ∧
    metricNameMaxLen ≤ (scanMetricLine metricLine).metricName.length)

/-- The point a line adds. -/
def linePoint (metricLine : CString) : CString × UInt32 × UInt64 :=
  let line := scanMetricLine metricLine
  (line.metricName, line.timestamp, line.value)

theorem Integrity.processLine (integrity : Integrity mem entries) (fits : NameFits metricLine) :
    ∃ mem' entries', Yields (protocolProcessMetricLine metricLine) mem () mem' ∧
      Integrity mem' entries' ∧ mem'.added = mem.added ++ [linePoint metricLine] := by
  rw [protocolProcessMetricLine, if_neg fits]
  exact integrity.addPoint _ _ _

theorem Integrity.processLines (integrity : Integrity mem entries)
    (fit : ∀ line ∈ metricLines, NameFits line) :
    ∃ mem' entries', Yields (protocolProcessMetricLines metricLines) mem () mem' ∧
      Integrity mem' entries' ∧ mem'.added = mem.added ++ metricLines.map linePoint := by
  induction metricLines generalizing mem entries with
  | nil => exact ⟨mem, entries, .pure _ _, integrity, (List.append_nil _).symm⟩
  | cons line rest ih =>
    obtain ⟨mem₁, entries₁, first, integrity₁, added₁⟩ :=
      integrity.processLine (fit line List.mem_cons_self)
    obtain ⟨mem₂, entries₂, run, integrity₂, added₂⟩ := ih integrity₁ fun line member =>
      fit line (List.mem_cons_of_mem _ member)
    refine ⟨mem₂, entries₂, .bind first run, integrity₂, ?_⟩
    rw [added₂, added₁, List.append_assoc]
    rfl

/-! ### Whole operations -/

inductive Operation where
  | line (metricLine : CString)
  | monitoring (name : CString) (timestamp : UInt32) (value : UInt64)
  | write

namespace Operation

def run : Operation → Step Unit
  | line metricLine => protocolProcessMetricLine metricLine
  | monitoring name timestamp value => updateMonitoringMetric name timestamp value
  | write => writerIteration

/-- All three fields of a line can be converted, and the name fits into its buffer. -/
def WellFormed : Operation → Prop
  | line metricLine => (scanMetricLine metricLine).conversions = 3 ∧
      (scanMetricLine metricLine).metricName.length < metricNameMaxLen
  | monitoring _ _ _ => True
  | write => True

/-- The point received, under its name. -/
def received : Operation → List (CString × UInt32 × UInt64)
  | line metricLine => [linePoint metricLine]
  | monitoring name timestamp value => [(name, timestamp, value)]
  | write => []

end Operation

def runOperations : List Operation → Step Unit
  | [] => return ()
  | operation :: rest => do
    operation.run
    runOperations rest

theorem Integrity.run (integrity : Integrity mem entries) (operation : Operation)
    (wellFormed : operation.WellFormed) : ∃ mem' entries', Yields operation.run mem () mem' ∧
      Integrity mem' entries' ∧ mem'.added = mem.added ++ operation.received := by
  cases operation with
  | line metricLine =>
    exact integrity.processLine fun long => Nat.not_le_of_lt wellFormed.2 long.2
  | monitoring name timestamp value => exact integrity.addPoint name timestamp value
  | write =>
    rw [Operation.received, List.append_nil]
    exact integrity.write

theorem Integrity.runOperations (integrity : Integrity mem entries)
    (wellFormed : ∀ operation ∈ operations, operation.WellFormed) :
    ∃ mem' entries', Yields (runOperations operations) mem () mem' ∧ Integrity mem' entries' ∧
      mem'.added = mem.added ++ operations.flatMap Operation.received := by
  induction operations generalizing mem entries with
  | nil => exact ⟨mem, entries, .pure _ _, integrity, (List.append_nil _).symm⟩
  | cons operation rest ih =>
    obtain ⟨mem₁, entries₁, first, integrity₁, added₁⟩ := integrity.run operation
      (wellFormed operation List.mem_cons_self)
    obtain ⟨mem₂, entries₂, run, integrity₂, added₂⟩ := ih integrity₁ fun operation member =>
      wellFormed operation (List.mem_cons_of_mem _ member)
    refine ⟨mem₂, entries₂, .bind first run, integrity₂, ?_⟩
    rw [added₂, added₁, List.append_assoc, List.flatMap_cons]

/-- From the empty database every run of whole operations keeps the lists sound, and hands on the
points of each name in the order they came in. -/
theorem runOperations_integrity (wellFormed : ∀ operation ∈ operations, operation.WellFormed) :
    ∃ mem entries, Yields (runOperations operations) emptyMemory () mem ∧
      Stands mem entries ∧ ∀ name, under mem.handed name ++ cachedUnder entries name =
        under (operations.flatMap Operation.received) name := by
  obtain ⟨mem, entries, run, integrity, added⟩ := integrity_empty.runOperations wellFormed
  refine ⟨mem, entries, run, integrity.stands, fun name => ?_⟩
  have delivered := integrity.delivered name
  rwa [added] at delivered

end

/-- Two points of one metric, with a turn of the writer between them. -/
theorem runOperations_integrity_witness : ∃ mem entries,
    Yields (@runOperations matchesAll [.line "a 0 10".toList, .monitoring "b".toList 11 0, .write,
      .line "a 0 20".toList]) emptyMemory () mem ∧ Stands mem entries ∧
    under mem.handed "a".toList ++ cachedUnder entries "a".toList = [(10, 0), (20, 0)] := by
  obtain ⟨mem, entries, run, stands, delivered⟩ := @runOperations_integrity matchesAll
    [.line "a 0 10".toList, .monitoring "b".toList 11 0, .write, .line "a 0 20".toList] (by
      simp only [List.forall_mem_cons]
      exact ⟨⟨by decide, by decide⟩, trivial, trivial, ⟨by decide, by decide⟩, nofun⟩)
  refine ⟨mem, entries, run, stands, (delivered "a".toList).trans ?_⟩
  decide

end Carbond.Cache
