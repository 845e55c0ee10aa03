import Carbond.Cache.FlushProofs
import Carbond.Daemon.Storage

/-! What reaches the disk is what the memory hands on: a run of the daemon with its disk is the run
of its memory, and the calls recorded there, one after the other, on the disk. -/
namespace Carbond.Daemon
open Heap Posix Text Cache
variable {mem mem' mem₁ : Memory} {m : Addr} {steps : ℕ}

variable [Platform] {conf : CarbonConf}

/-- The program takes the memory so, and makes the calls it records. -/
def Performs (conf : CarbonConf) (program : Service α) (mem mem' : Memory) : Prop :=
  ∃ calls, mem'.handed = mem.handed ++ calls ∧ Carries program mem mem' (storePoints conf calls)

theorem performs_memory {program : Cache.Step α} (run : Yields program mem a mem')
    (same : mem'.handed = mem.handed) : Performs conf (onFirst program) mem mem' :=
  ⟨[], same.trans (List.append_nil _).symm, fun t => ⟨a, run.onFirst t⟩⟩

theorem Performs.pure (a : α) (mem : Memory) : Performs conf (Pure.pure a) mem mem :=
  ⟨[], (List.append_nil _).symm, .pure a mem⟩

theorem Performs.bind {first : Service α} {rest : Service β} (head : Performs conf first mem mem₁)
    (tail : Performs conf rest mem₁ mem') : Performs conf (first >>= fun _ => rest) mem mem' := by
  obtain ⟨calls, handed, carries⟩ := head
  obtain ⟨calls', handed', carries'⟩ := tail
  refine ⟨calls ++ calls', ?_, ?_⟩
  · rw [handed', handed, List.append_assoc]
  · rw [storePoints_append]
    exact carries.bind fun _ => carries'

/-- A step in memory, whose result is known, makes no call. -/
theorem Performs.after {first : Cache.Step α} {rest : α → Service β} (head : Yields first mem a mem₁)
    (same : mem₁.handed = mem.handed) (tail : Performs conf (rest a) mem₁ mem') :
    Performs conf (onFirst first >>= rest) mem mem' := by
  obtain ⟨calls, handed, carries⟩ := tail
  exact ⟨calls, same ▸ handed, .after head carries⟩

theorem storeValue_performs (run : Yields (Cache.whisperWriteValue m timestamp value) mem () mem') :
    Performs conf (storeValue conf m timestamp value) mem mem' := by
  obtain ⟨metric, mem₁, looked, recorded⟩ := run.split
  obtain rfl := readMetric_same looked
  refine ⟨[(metric.name, timestamp, value)], ?_, .after looked (.after run (.second _ _))⟩
  cases recorded
  rfl

theorem storeMetricLoop_performs (run : Yields (writeMetricLoop m steps mtP) mem () mem') :
    Performs conf (storeMetricLoop conf m steps mtP) mem mem' := by
  induction steps generalizing mtP mem with
  | zero =>
    cases mtP with
    | none =>
      cases run
      exact .pure _ _
    | some a => cases run
  | succ steps ih =>
    cases mtP with
    | none =>
      cases run
      exact .pure _ _
    | some a =>
      obtain ⟨point, mem₁, looked, later⟩ := run.split
      obtain ⟨_, mem₂, wrote, later⟩ := later.split
      obtain ⟨_, mem₃, freed, later⟩ := later.split
      obtain rfl := readPoint_same looked
      apply Performs.after looked rfl
      apply (storeValue_performs wrote).bind
      exact .after freed (freePoint_handed freed) (ih later)

theorem storeMetric_performs (run : Yields (writeMetric m) mem () mem') :
    Performs conf (storeMetric conf m) mem mem' := by
  obtain ⟨metric, mem₁, looked, run⟩ := run.split
  obtain ⟨_, mem₂, got, run⟩ := run.split
  obtain ⟨_, mem₃, loop, run⟩ := run.split
  obtain ⟨_, mem₄, first, run⟩ := run.split
  obtain ⟨_, mem₅, second, third⟩ := run.split
  obtain rfl := readMetric_same looked
  cases got
  apply Performs.after looked rfl
  apply Performs.after (.get _) rfl
  apply (storeMetricLoop_performs loop).bind
  apply Performs.after first (storeMetric_handed first)
  apply Performs.after second (storeMetric_handed second)
  exact performs_memory third (storeMetric_handed third)

theorem storeIteration_performs (run : Yields writerIteration mem () mem') :
    Performs conf (storeIteration conf) mem mem' := by
  obtain ⟨found, mem₁, search, run⟩ := run.split
  obtain rfl := findLargestMetric_same search
  apply Performs.after search rfl
  cases found with
  | none =>
    cases run
    exact .pure _ _
  | some maxM => exact storeMetric_performs run

theorem serviceRun_performs (integrity : Integrity mem entries) (operation : Operation)
    (wellFormed : operation.WellFormed) (run : Yields operation.run mem () mem') :
    Performs conf (serviceRun conf operation) mem mem' := by
  cases operation with
  | line metricLine =>
    have fits : NameFits metricLine := fun long => Nat.not_le_of_lt wellFormed.2 long.2
    refine performs_memory run ?_
    rw [Operation.run, protocolProcessMetricLine, if_neg fits] at run
    obtain ⟨mem₁, _, known, _, _, _, _, handed⟩ := addPoint_yields integrity.stands
      (scanMetricLine metricLine).metricName (scanMetricLine metricLine).timestamp
      (scanMetricLine metricLine).value
    rw [(run.unique known).2, handed]
  | monitoring name timestamp value =>
    refine performs_memory run ?_
    obtain ⟨mem₁, _, known, _, _, _, _, handed⟩ :=
      addPoint_yields integrity.stands name timestamp value
    rw [(run.unique known).2, handed]
  | write => exact storeIteration_performs run

/-- A run of the daemon is the run of its memory, with the calls made on the disk. -/
theorem serviceRuns_performs (integrity : Integrity mem entries)
    (wellFormed : ∀ operation ∈ operations, operation.WellFormed)
    (run : Yields (runOperations operations) mem () mem') :
    Performs conf (serviceRuns conf operations) mem mem' := by
  induction operations generalizing mem entries with
  | nil =>
    cases run
    exact .pure _ _
  | cons operation rest ih =>
    have sound := wellFormed operation List.mem_cons_self
    obtain ⟨_, mem₂, first, later⟩ := run.split
    obtain ⟨mem₃, entries₃, known, integrity₃, _⟩ := integrity.run operation sound
    obtain ⟨_, rfl⟩ := first.unique known
    exact (serviceRun_performs integrity operation sound first).bind
      (ih integrity₃ (fun o member => wellFormed o (List.mem_cons_of_mem _ member)) later)

end Carbond.Daemon
