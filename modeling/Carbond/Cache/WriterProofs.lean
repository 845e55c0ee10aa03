import Carbond.Cache.DatabaseProofs

/-! The writer hands on the points of the largest metric, in their order, and leaves it empty. -/
namespace Carbond.Cache
open Heap Posix Text
variable {mem : Memory} {entries before after : List Entry} {e : Entry}

/-! ### Emptying a metric -/

theorem whisperWriteValue_yields (cell : mem.metrics.cells m = some metric) (timestamp : UInt32)
    (value : UInt64) : Yields (whisperWriteValue m timestamp value) mem ()
      { mem with handed := mem.handed ++ [(metric.name, timestamp, value)] } :=
  .bind (readMetric_yields cell) (.update _ _)

/-- The loop frees every node once its point is handed on, and reads no node after that. -/
theorem writeMetricLoop_yields (cell : mem.metrics.cells m = some metric)
    (segment : Segment mem.points MetricPoint.next p nodes none) (enough : nodes.length ≤ steps) :
    ∃ points, Yields (writeMetricLoop m steps p) mem ()
        { mem with
          points := points
          handed := mem.handed ++ nodes.map fun node =>
            (metric.name, node.2.timestamp, node.2.value) } ∧
      ∀ a ∉ nodes.map Prod.fst, points.cells a = mem.points.cells a := by
  induction nodes generalizing mem p steps with
  | nil =>
    obtain rfl : p = none := segment
    refine ⟨mem.points, ?_, fun _ _ => rfl⟩
    rw [List.map_nil, List.append_nil]
    cases steps with
    | zero => exact .pure _ _
    | succ steps => exact .pure _ _
  | cons node rest ih =>
    have nodup := segment.nodup
    obtain ⟨rfl, here, tail⟩ := segment
    cases steps with
    | zero => exact absurd enough (Nat.not_succ_le_zero _)
    | succ steps =>
      let mem₁ : Memory :=
        { mem with
          points := mem.points.free node.1
          handed := mem.handed ++ [(metric.name, node.2.timestamp, node.2.value)] }
      rw [List.map_cons, List.nodup_cons] at nodup
      have tail₁ : Segment mem₁.points MetricPoint.next node.2.next rest none :=
        tail.free_apart nodup.1
      have cell₁ : mem₁.metrics.cells m = some metric := cell
      obtain ⟨points, run, same⟩ := ih cell₁ tail₁ (Nat.le_of_succ_le_succ enough)
      refine ⟨points, ?_, ?_⟩
      · rw [List.append_assoc] at run
        exact .bind (readPoint_yields here) (.bind (whisperWriteValue_yields cell _ _)
          (.bind (.update _ _) run))
      · intro a apart
        rw [List.map_cons, List.mem_cons, not_or] at apart
        rw [same a apart.2]
        exact Cells.free_cells_other _ apart.1

theorem writeMetric_yields (stands : Stands mem (before ++ e :: after)) :
    ∃ mem' e', Yields (writeMetric e.addr) mem () mem' ∧ Stands mem' (before ++ e' :: after) ∧
      e'.metric.name = e.metric.name ∧ e'.cached = [] ∧ mem'.added = mem.added ∧
      mem'.handed = mem.handed ++ e.cached.map fun point => (e.metric.name, point) := by
  have holds := stands.holds e (by simp)
  have list := stands.list
  rw [List.map_append, List.map_cons] at list
  have cell := list.segment.cell e.cell (by simp)
  obtain ⟨points, run, same⟩ := writeMetricLoop_yields cell holds.queue.segment
    holds.queue.segment.length_le
  let mem₁ : Memory :=
    { mem with
      points := points
      handed := mem.handed ++ e.nodes.map fun node =>
        (e.metric.name, node.2.timestamp, node.2.value) }
  obtain ⟨first, list⟩ := storeMetric_listed mem₁ list (fun metric => { metric with nbPoints := 0 }) rfl
  let mem₂ : Memory :=
    { mem₁ with metrics := mem₁.metrics.modify e.addr fun metric => { metric with nbPoints := 0 } }
  obtain ⟨second, list⟩ := storeMetric_listed mem₂ list (fun metric => { metric with points := none }) rfl
  let mem₃ : Memory :=
    { mem₂ with metrics := mem₂.metrics.modify e.addr fun metric => { metric with points := none } }
  obtain ⟨third, list⟩ := storeMetric_listed mem₃ list (fun metric => { metric with last := none }) rfl
  let e' : Entry := ⟨e.addr, ⟨e.metric.name, 0, none, none, e.metric.next⟩, []⟩
  refine ⟨_, e', .bind (readMetric_yields cell) (.bind (.get mem) (.bind run (.bind first
    (.bind second third)))), ?_, rfl, rfl, rfl, ?_⟩
  · refine stands.replace (by simpa [Entry.cell, e'] using list) ⟨.empty, rfl⟩ rfl ?_ ?_
    · intro other member a inside
      exact same a fun mine => stands.others other member mine inside
    · intro _ _ _ mine
      contradiction
  · simp [mem₃, mem₂, mem₁, Entry.cached, Function.comp_def]

/-! ### The largest metric -/

/-- The first of the entries with the most points, if any has more than those seen before. -/
theorem findLargestMetricLoop_yields
    (segment : Segment mem.metrics Metric.next p (entries.map Entry.cell) none)
    (enough : entries.length ≤ steps) (maxM : Option Addr) (maxNbPoints : UInt32) :
    ∃ found, Yields (findLargestMetricLoop steps p maxM maxNbPoints) mem found mem ∧
      (found = maxM ∧ (∀ e ∈ entries, e.metric.nbPoints ≤ maxNbPoints) ∨
        ∃ before e after, entries = before ++ e :: after ∧ found = some e.addr ∧
          maxNbPoints < e.metric.nbPoints ∧
          (∀ e' ∈ before, e'.metric.nbPoints < e.metric.nbPoints) ∧
          ∀ e' ∈ after, e'.metric.nbPoints ≤ e.metric.nbPoints) := by
  induction entries generalizing p steps maxM maxNbPoints with
  | nil =>
    obtain rfl : p = none := segment
    refine ⟨maxM, ?_, .inl ⟨rfl, nofun⟩⟩
    cases steps with
    | zero => exact .pure _ _
    | succ steps => exact .pure _ _
  | cons e rest ih =>
    obtain ⟨rfl, cell, tail⟩ := segment
    cases steps with
    | zero => exact absurd enough (Nat.not_succ_le_zero _)
    | succ steps =>
      have enough' := Nat.le_of_succ_le_succ enough
      by_cases larger : e.metric.nbPoints > maxNbPoints
      · obtain ⟨found, run, result⟩ := ih tail enough' (some e.addr) e.metric.nbPoints
        refine ⟨found, .bind (readMetric_yields cell) ?_, .inr ?_⟩
        · rw [if_pos larger]
          exact run
        · obtain ⟨rfl, least⟩ | ⟨before, e', after, rfl, rfl, more, front, back⟩ := result
          · exact ⟨[], e, rest, rfl, rfl, larger, nofun, least⟩
          · refine ⟨e :: before, e', after, rfl, rfl, UInt32.lt_trans larger more, ?_, back⟩
            intro e'' member
            rcases List.mem_cons.mp member with rfl | member
            · exact more
            · exact front e'' member
      · obtain ⟨found, run, result⟩ := ih tail enough' maxM maxNbPoints
        have small := UInt32.not_lt.mp larger
        refine ⟨found, .bind (readMetric_yields cell) ?_, ?_⟩
        · rw [if_neg larger]
          exact run
        · obtain ⟨rfl, least⟩ | ⟨before, e', after, rfl, rfl, more, front, back⟩ := result
          · refine .inl ⟨rfl, fun e'' member => ?_⟩
            rcases List.mem_cons.mp member with rfl | member
            · exact small
            · exact least e'' member
          · refine .inr ⟨e :: before, e', after, rfl, rfl, more, ?_, back⟩
            intro e'' member
            rcases List.mem_cons.mp member with rfl | member
            · exact UInt32.lt_of_le_of_lt small more
            · exact front e'' member

theorem findLargestMetric_yields (stands : Stands mem entries) :
    ∃ found, Yields findLargestMetric mem found mem ∧
      (found = none ∧ (∀ e ∈ entries, e.metric.nbPoints = 0) ∨
        ∃ before e after, entries = before ++ e :: after ∧ found = some e.addr ∧
          0 < e.metric.nbPoints ∧ (∀ e' ∈ before, e'.metric.nbPoints < e.metric.nbPoints) ∧
          ∀ e' ∈ after, e'.metric.nbPoints ≤ e.metric.nbPoints) := by
  have enough := stands.list.segment.length_le
  rw [List.length_map] at enough
  obtain ⟨found, run, result⟩ := findLargestMetricLoop_yields stands.list.segment enough none 0
  refine ⟨found, .bind (.get mem) run, ?_⟩
  obtain ⟨same, least⟩ | largest := result
  · exact .inl ⟨same, fun e member => UInt32.le_zero_iff.mp (least e member)⟩
  · exact .inr largest

end Carbond.Cache
