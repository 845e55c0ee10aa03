import Carbond.Cache.WriterProofs
import Carbond.Sorting.Selection

/-! The writer empties the database largest metric first, if nothing is received meanwhile. -/
namespace Carbond.Cache
open Heap Posix Sorting
variable {mem : Memory} {entries before after : List Entry} {e e' : Entry}

/-- The turns of the writer's loop up to the first without a metric to write, and how many it
wrote. -/
def drain : ℕ → Step ℕ
  | 0 => throw .unfinished
  | turns + 1 => do
    match ← findLargestMetric with
    | none => return 0
    | some maxM =>
      writeMetric maxM
      let written ← drain turns
      return written + 1

/-- The calls of `whisper_write_value` for the points of a metric. -/
def Entry.calls (e : Entry) : List (Text.CString × UInt32 × UInt64) :=
  e.cached.map fun point => (e.metric.name, point)

def Entry.size (e : Entry) : ℕ := e.metric.nbPoints.toNat

/-- The metrics that have points. -/
def nonEmpty (entries : List Entry) : List Entry := entries.filter (·.nodes ≠ [])

/-! ### Counters -/

/-- The counter of each metric is the length of its list. -/
def Counted (entries : List Entry) : Prop := ∀ e ∈ entries, e.nodes.length < 2 ^ 32

theorem size_eq (stands : Stands mem entries) (counted : Counted entries) (member : e ∈ entries) :
    e.size = e.nodes.length := by
  rw [Entry.size, (stands.holds e member).counted, UInt32.toNat_ofNat']
  exact Nat.mod_eq_of_lt (counted e member)

theorem nodes_of_cached (empty : e.cached = []) : e.nodes = [] := List.map_eq_nil_iff.mp empty

theorem nonEmpty_extract (before after : List Entry) (some : e.nodes ≠ []) (none : e'.nodes = []) :
    nonEmpty (before ++ e :: after) = nonEmpty before ++ e :: nonEmpty after ∧
      nonEmpty (before ++ e' :: after) = nonEmpty before ++ nonEmpty after := by
  simp [nonEmpty, some, none]

/-- Without points there are no calls. -/
theorem calls_nonEmpty (entries : List Entry) :
    (decreasing Entry.size (nonEmpty entries)).flatMap Entry.calls =
      (decreasing Entry.size entries).flatMap Entry.calls := by
  rw [nonEmpty, ← decreasing_filter]
  induction decreasing Entry.size entries with
  | nil => rfl
  | cons e rest ih =>
    by_cases some : e.nodes ≠ []
    · rw [List.filter_cons, if_pos (decide_eq_true some), List.flatMap_cons, List.flatMap_cons, ih]
    · have none : e.calls = [] := by simp [Entry.calls, Entry.cached, not_not.mp some]
      rw [List.filter_cons, if_neg (by simpa using some), List.flatMap_cons, ih, none,
        List.nil_append]

/-! ### The loop -/

theorem drain_stops (stands : Stands mem entries) (counted : Counted entries)
    (found : Yields findLargestMetric mem none mem) : nonEmpty entries = [] := by
  obtain ⟨_, found', result⟩ := findLargestMetric_yields stands
  obtain ⟨rfl, _⟩ := Yields.unique found found'
  obtain ⟨_, zero⟩ | ⟨_, _, _, _, some, _⟩ := result
  · rw [nonEmpty, List.filter_eq_nil_iff]
    intro e member
    have size := size_eq stands counted member
    rw [Entry.size, zero e member] at size
    simpa using List.length_eq_zero_iff.mp size.symm
  · contradiction

theorem drain_yields (stands : Stands mem entries) (counted : Counted entries)
    (enough : (nonEmpty entries).length < turns) : ∃ mem' entries',
    Yields (drain turns) mem (nonEmpty entries).length mem' ∧ Stands mem' entries' ∧
      metricNames entries' = metricNames entries ∧ (∀ e ∈ entries', e.nodes = []) ∧
      Yields findLargestMetric mem' none mem' ∧ mem'.handed =
        mem.handed ++ (decreasing Entry.size (nonEmpty entries)).flatMap Entry.calls := by
  induction turns generalizing mem entries with
  | zero => contradiction
  | succ turns ih =>
    obtain ⟨found, search, result⟩ := findLargestMetric_yields stands
    obtain ⟨rfl, _⟩ | ⟨before, e, after, rfl, rfl, positive, front, back⟩ := result
    · have none := drain_stops stands counted search
      refine ⟨mem, entries, ?_, stands, rfl, ?_, search, ?_⟩
      · rw [none]
        exact .bind search (.pure _ _)
      · intro e member
        simpa [none] using List.filter_eq_nil_iff.mp none e member
      · rw [none]
        exact (List.append_nil _).symm
    · obtain ⟨mem₁, e', wrote, stands₁, name, cached, _, handed₁⟩ := writeMetric_yields stands
      have empty := nodes_of_cached cached
      have here : e ∈ before ++ e :: after := by simp
      have some : e.nodes ≠ [] := by
        intro none
        have size := size_eq stands counted here
        rw [none, Entry.size, List.length_nil] at size
        exact absurd positive (by rw [UInt32.lt_iff_toNat_lt, size]; exact Nat.lt_irrefl 0)
      obtain ⟨extracted, left⟩ := nonEmpty_extract before after some empty
      have counted₁ : Counted (before ++ e' :: after) := by
        intro other member
        rcases List.mem_append.mp member with front | back
        · exact counted other (List.mem_append_left _ front)
        · rcases List.mem_cons.mp back with rfl | back
          · rw [empty]
            exact Nat.two_pow_pos 32
          · exact counted other (by simp [back])
      have length : (nonEmpty (before ++ e :: after)).length =
          (nonEmpty (before ++ e' :: after)).length + 1 := by
        rw [extracted, left]
        simp [Nat.add_assoc]
      obtain ⟨mem₂, entries₂, run, stands₂, names, all, search₂, handed₂⟩ :=
        ih stands₁ counted₁ (by omega)
      refine ⟨mem₂, entries₂, ?_, stands₂, names.trans ?_, all, search₂, ?_⟩
      · rw [length]
        exact .bind search (.bind wrote (.bind run (.pure _ _)))
      · simp only [metricNames, List.map_append, List.map_cons, name]
      · have largest : FirstLargest Entry.size (nonEmpty before) e (nonEmpty after) :=
          ⟨fun other member => front other (List.mem_filter.mp member).1,
            fun other member => back other (List.mem_filter.mp member).1⟩
        rw [extracted, decreasing_extract largest, handed₂, handed₁, left, List.flatMap_cons,
          List.append_assoc]
        rfl

/-- Without appends every database is drained: as many writes as there are metrics with points, then
`find_largest_metric` finds none, all metrics are empty, and the points were written largest metric
first, metrics of one size in the order of their list. -/
theorem drain_complete (stands : Stands mem entries) (counted : Counted entries)
    (enough : (nonEmpty entries).length < turns) : ∃ mem' entries',
    Yields (drain turns) mem (nonEmpty entries).length mem' ∧ Stands mem' entries' ∧
      metricNames entries' = metricNames entries ∧ (∀ e ∈ entries', e.nodes = []) ∧
      Yields findLargestMetric mem' none mem' ∧
      mem'.handed = mem.handed ++ (decreasing Entry.size entries).flatMap Entry.calls := by
  obtain ⟨mem', entries', run, stands', names, all, search, handed⟩ :=
    drain_yields stands counted enough
  exact ⟨mem', entries', run, stands', names, all, search, calls_nonEmpty entries ▸ handed⟩

/-- A metric with one point before one with two. -/
def twoMetrics : List Entry :=
  [⟨0, ⟨"a".toList, 1, some 0, some 0, some 1⟩, [(0, ⟨10, 0, none⟩)]⟩,
    ⟨1, ⟨"b".toList, 2, some 1, some 2, none⟩, [(1, ⟨20, 0, some 2⟩), (2, ⟨30, 0, none⟩)]⟩]

def twoMetricsMemory : Memory where
  metrics := (Cells.empty.alloc ⟨"a".toList, 1, some 0, some 0, some 1⟩).alloc
    ⟨"b".toList, 2, some 1, some 2, none⟩
  points := ((Cells.empty.alloc ⟨10, 0, none⟩).alloc ⟨20, 0, some 2⟩).alloc ⟨30, 0, none⟩
  db := ⟨some 0, some 1⟩
  added := []
  handed := []

theorem twoMetrics_stands : Stands twoMetricsMemory twoMetrics := by
  refine ⟨⟨⟨rfl, rfl, rfl, rfl, rfl⟩, rfl⟩, ?_, ?_, by decide⟩
  · intro e member
    rcases List.mem_cons.mp member with rfl | member
    · exact ⟨⟨⟨rfl, rfl, rfl⟩, rfl⟩, rfl⟩
    · obtain rfl := List.mem_singleton.mp member
      exact ⟨⟨⟨rfl, rfl, rfl, rfl, rfl⟩, rfl⟩, rfl⟩
  · simp [twoMetrics, Entry.addresses]

theorem drain_complete_witness : ∃ mem entries,
    Yields (drain 3) twoMetricsMemory 2 mem ∧ Stands mem entries ∧
      metricNames entries = ["a".toList, "b".toList] ∧ (∀ e ∈ entries, e.nodes = []) ∧
      Yields findLargestMetric mem none mem ∧
      mem.handed = [("b".toList, 20, 0), ("b".toList, 30, 0), ("a".toList, 10, 0)] :=
  drain_complete twoMetrics_stands (by unfold Counted; decide) (by decide)

end Carbond.Cache
