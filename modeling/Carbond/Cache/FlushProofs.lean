import Carbond.Cache.DeliveryProofs
import Carbond.Cache.DrainProofs
import Mathlib.Data.List.Dedup

/-! Turns of the writer without new points, after any run: once there were as many as there are
names, no point waits. -/
namespace Carbond.Cache
open Heap Posix Text Fifo
variable {mem mem' mem₁ : Memory} {m : Addr} {steps turns : ℕ} {entries : List Entry} {e : Entry}

/-! ### Steps that record no call -/

theorem readMetric_same {p : Option Addr} (run : Yields (readMetric p) mem metric mem') :
    mem' = mem := by
  cases p with
  | none => cases run
  | some a =>
    obtain ⟨_, _, got, run⟩ := run.split
    cases got
    cases found : mem.metrics.cells a with
    | none =>
      rw [found] at run
      cases run
    | some metric =>
      rw [found] at run
      cases run
      rfl

theorem readPoint_same {p : Option Addr} (run : Yields (readPoint p) mem point mem') :
    mem' = mem := by
  cases p with
  | none => cases run
  | some a =>
    obtain ⟨_, _, got, run⟩ := run.split
    cases got
    cases found : mem.points.cells a with
    | none =>
      rw [found] at run
      cases run
    | some point =>
      rw [found] at run
      cases run
      rfl

theorem storeMetric_handed {f : Metric → Metric}
    (run : Yields (storeMetric m f) mem () mem') : mem'.handed = mem.handed := by
  obtain ⟨_, _, looked, updated⟩ := run.split
  obtain rfl := readMetric_same looked
  cases updated
  rfl

theorem freePoint_handed (run : Yields (freePoint a) mem () mem') : mem'.handed = mem.handed := by
  cases run
  rfl

theorem findLargestMetricLoop_same {cur maxM : Option Addr}
    (run : Yields (findLargestMetricLoop steps cur maxM maxNbPoints) mem found mem') :
    mem' = mem := by
  induction steps generalizing cur maxM maxNbPoints with
  | zero =>
    cases cur with
    | none =>
      cases run
      rfl
    | some a => cases run
  | succ steps ih =>
    cases cur with
    | none =>
      cases run
      rfl
    | some a =>
      obtain ⟨metric, _, looked, later⟩ := run.split
      obtain rfl := readMetric_same looked
      split at later
      · exact ih later
      · exact ih later

theorem findLargestMetric_same (run : Yields findLargestMetric mem found mem') : mem' = mem := by
  obtain ⟨_, _, got, run⟩ := run.split
  cases got
  exact findLargestMetricLoop_same run

/-! ### Turns enough -/

/-- A metric with points has received them. -/
theorem nonEmpty_received (integrity : Integrity mem entries) (member : e ∈ nonEmpty entries) :
    e.metric.name ∈ mem.added.map Prod.fst := by
  obtain ⟨inside, some⟩ := List.mem_filter.mp member
  obtain ⟨node, rest, split⟩ := List.exists_cons_of_ne_nil (of_decide_eq_true some)
  obtain ⟨before, after, rfl⟩ := List.append_of_mem inside
  have delivered := integrity.delivered e.metric.name
  rw [cachedUnder_self integrity.stands.names, Entry.cached, split] at delivered
  have waits : (node.2.timestamp, node.2.value) ∈ under mem.added e.metric.name := by
    rw [← delivered]
    simp
  exact List.mem_map_of_mem (mem_under.mp waits)

theorem Integrity.nonEmpty_length (integrity : Integrity mem entries) :
    (nonEmpty entries).length ≤ (mem.added.map Prod.fst).dedup.length := by
  have nodup : ((nonEmpty entries).map fun e => e.metric.name).Nodup :=
    integrity.stands.names.sublist (List.filter_sublist.map _)
  rw [← List.length_map (fun e : Entry => e.metric.name)]
  refine (nodup.subperm fun name member => ?_).length_le
  obtain ⟨e, inside, rfl⟩ := List.mem_map.mp member
  exact List.mem_dedup.mpr (nonEmpty_received integrity inside)

theorem Integrity.counted (integrity : Integrity mem entries)
    (few : ∀ name, (under mem.added name).length < 2 ^ 32) : Counted entries := by
  intro e member
  have known := few e.metric.name
  obtain ⟨before, after, rfl⟩ := List.append_of_mem member
  rw [← integrity.delivered e.metric.name, cachedUnder_self integrity.stands.names,
    List.length_append, Entry.cached, List.length_map] at known
  omega

section
variable [Platform]

theorem writes_idle (search : Yields findLargestMetric mem none mem) (turns : ℕ) :
    Yields (runOperations (List.replicate turns .write)) mem () mem := by
  induction turns with
  | zero => exact .pure _ _
  | succ turns ih =>
    have idle : Yields Operation.write.run mem () mem := .bind search (.pure _ _)
    exact .bind idle ih

/-- Turns of the writer are those of its loop, and after that nothing happens. -/
theorem writes_drain (drained : Yields (drain steps) mem n mem')
    (search : Yields findLargestMetric mem' none mem') (enough : n ≤ turns) :
    Yields (runOperations (List.replicate turns .write)) mem () mem' := by
  induction steps generalizing mem n turns with
  | zero => cases drained
  | succ steps ih =>
    obtain ⟨found, mem₁, searched, later⟩ := drained.split
    cases found with
    | none =>
      obtain rfl := findLargestMetric_same searched
      cases later
      exact writes_idle search turns
    | some maxM =>
      obtain ⟨_, mem₂, wrote, later⟩ := later.split
      obtain ⟨written, mem₃, drained, later⟩ := later.split
      cases later
      cases turns with
      | zero => contradiction
      | succ turns =>
        have first : Yields Operation.write.run mem () mem₂ := .bind searched wrote
        exact .bind first (ih drained (Nat.le_of_succ_le_succ enough))

/-- With enough turns the writer takes all points. -/
theorem Integrity.flush (integrity : Integrity mem entries)
    (few : ∀ name, (under mem.added name).length < 2 ^ 32)
    (enough : (mem.added.map Prod.fst).dedup.length ≤ turns) :
    ∃ mem' entries', Yields (Cache.runOperations (List.replicate turns .write)) mem () mem' ∧
      Stands mem' entries' ∧ ∀ name, cachedUnder entries' name = [] := by
  have bound := integrity.nonEmpty_length
  obtain ⟨mem', entries', drained, stands, _, empty, search, _⟩ :=
    drain_yields integrity.stands (integrity.counted few) (Nat.lt_succ_of_le (bound.trans enough))
  refine ⟨mem', entries', writes_drain drained search (bound.trans enough), stands, fun name => ?_⟩
  rw [cachedUnder, List.flatMap_eq_nil_iff]
  intro e member
  rw [Entry.cached, empty e (List.mem_filter.mp member).1, List.map_nil]

theorem runOperations_append (first second : List Operation)
    (run : Yields (runOperations first) mem () mem₁)
    (later : Yields (runOperations second) mem₁ () mem') :
    Yields (runOperations (first ++ second)) mem () mem' := by
  induction first generalizing mem with
  | nil =>
    cases run
    exact later
  | cons operation rest ih =>
    obtain ⟨_, _, head, tail⟩ := run.split
    exact .bind head (ih tail)

end
end Carbond.Cache
