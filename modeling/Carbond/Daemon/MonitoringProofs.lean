import Carbond.Cache.HistoryProofs
import Carbond.Daemon.Monitoring
import Carbond.Whisper.CountProofs
import Carbond.Whisper.CreateProofs

/-! Every point written to the disk is reported once: what the monitoring has reported and what it
has yet to report make up the number of points written, up to overflows of the counter. -/
namespace Carbond.Daemon
open Heap Posix Text Cache Fifo Ieee
variable {entry : Whisper.PointWrite} {g : Whisper.Globals}

theorem doubleOf_value (n : UInt32) : double.value (doubleOf n).toNat = n.toNat := by
  have fits : n.toNat < 2 ^ (double.fractionBits + 1) := n.toNat_lt.trans (by decide)
  have exact := Format.value_ofNat fits (by decide) (by decide)
  have small : double.ofNat n.toNat < 2 ^ 64 := by
    by_cases zero : n.toNat = 0
    · rw [Format.ofNat, if_pos zero]
      decide
    · obtain ⟨_, below⟩ := @Format.shifted_bounds double _ zero fits
      have digits : n.toNat.log2 < 32 := (Nat.log2_lt zero).mpr n.toNat_lt
      rw [Format.ofNat, if_neg zero]
      simp only [double, Format.bias] at below ⊢
      omega
  rw [doubleOf, UInt64.toNat_ofNat_of_lt' small, exact]

/-- The sum of the numbers reported. -/
def reported (points : List (UInt32 × UInt64)) : ℚ :=
  (points.map fun point => double.value point.2.toNat).sum

theorem reported_append (points more : List (UInt32 × UInt64)) :
    reported (points ++ more) = reported points + reported more := by
  simp [reported]

/-- The counter holds the points written since that total, up to overflows. -/
def Counts (total : ℚ) (g : Whisper.Globals) : Prop :=
  ∃ overflows : ℕ, total + g.points.toNat + 2 ^ 32 * overflows = g.writes.length

theorem Counts.record (counts : Counts total g) : Counts total (Whisper.recordWrite entry g) := by
  obtain ⟨overflows, sum⟩ := counts
  have written : ((Whisper.recordWrite entry g).writes.length : ℚ) = g.writes.length + 1 := by
    simp [Whisper.recordWrite]
  rw [Counts, written, ← sum]
  have counted : (g.points + 1).toNat = (g.points.toNat + 1) % 2 ^ 32 := UInt32.toNat_add _ _
  by_cases room : g.points.toNat + 1 < 2 ^ 32
  · rw [Nat.mod_eq_of_lt room] at counted
    refine ⟨overflows, ?_⟩
    simp only [Whisper.recordWrite, counted]
    push_cast
    ring
  · have full : g.points.toNat + 1 = 2 ^ 32 := by
      have := g.points.toNat_lt
      omega
    have whole : (g.points.toNat : ℚ) = 2 ^ 32 - 1 := by
      rw [eq_sub_iff_add_eq]
      exact_mod_cast full
    rw [full, Nat.mod_self] at counted
    refine ⟨overflows + 1, ?_⟩
    simp only [Whisper.recordWrite, counted, whole]
    push_cast
    ring

theorem counts_lasting (total : ℚ) : Whisper.Lasting (Counts total) where
  record _ _ counts := counts.record
  overrun _ counts := counts

/-- What is reported and what is counted make up the points written. -/
def Accounted (s : Memory × World Whisper.Globals) : Prop :=
  Counts (reported (under s.1.added monitoringName)) s.2.globals

/-! ### Steps -/

theorem accounted_memory {program : Cache.Step α}
    (same : ∀ added, Keeps (HasAdded added) program) : Keeps Accounted (onFirst program) := by
  apply Keeps.onFirst
  intro w mem accounted
  have kept (mem' : Memory) (unchanged : HasAdded mem.added mem') : Accounted (mem', w) := by
    rw [Accounted, unchanged]
    exact accounted
  exact (same mem.added mem rfl).weaken (fun _ => kept) fun _ => kept

/-- A point under another name is no report. -/
theorem addPoint_accounted {name : CString} (other : name ≠ monitoringName) (timestamp : UInt32)
    (value : UInt64) : Keeps Accounted (onFirst (addPoint name timestamp value)) := by
  apply Keeps.onFirst
  intro w mem accounted
  refine (addPoint_added name timestamp value mem).weaken ?_ ?_
  · intro _ mem' appended
    have none : under [(name, timestamp, value)] monitoringName = [] :=
      under_other (Ne.symm other) [(timestamp, value)]
    rw [Accounted, appended, under_append, none, List.append_nil]
    exact accounted
  · intro _ mem' unchanged
    rw [Accounted, unchanged]
    exact accounted

/-- The report takes over what was counted. -/
theorem updateMonitoringMetrics_accounted (timestamp : UInt32) :
    Keeps Accounted (updateMonitoringMetrics timestamp) := by
  rintro ⟨mem, w⟩ accounted
  apply Ends.after ((Yields.get w).onSecond mem)
  have added := (addPoint_added monitoringName timestamp (doubleOf w.globals.points) mem).onFirst w
  refine .bind (added.weaken (fun _ _ known => known) ?_) ?_
  · rintro _ ⟨mem', _⟩ ⟨unchanged, rfl⟩
    rw [Accounted, unchanged]
    exact accounted
  · rintro _ ⟨mem', w'⟩ ⟨appended, same⟩
    obtain rfl : w' = w := same
    refine .of_yields ((Yields.update _ _).onSecond mem') ?_
    obtain ⟨overflows, sum⟩ := accounted
    have report : reported (under [(monitoringName, timestamp, doubleOf w'.globals.points)]
        monitoringName) = w'.globals.points.toNat := by
      rw [show under [(monitoringName, timestamp, doubleOf w'.globals.points)] monitoringName =
        [(timestamp, doubleOf w'.globals.points)] from
          under_same monitoringName [(timestamp, doubleOf w'.globals.points)]]
      simp only [reported, List.map_cons, List.map_nil, List.sum_singleton, doubleOf_value]
    refine ⟨overflows, ?_⟩
    rw [appended, under_append, reported_append, report]
    simpa [World.withGlobals] using sum

section
variable [Platform] {conf : CarbonConf}

theorem storeValue_accounted (m : Addr) (timestamp : UInt32) (value : UInt64) :
    Keeps Accounted (storeValue conf m timestamp value) := by
  apply (accounted_memory fun _ => readMetric_keeps _).bind
  intro metric
  apply (accounted_memory fun _ => whisperWriteValue_added m timestamp value).bind
  intro _
  apply Keeps.onSecond
  intro mem
  exact (counts_lasting (reported (under mem.added monitoringName))).whisperWriteValue conf
    metric.name timestamp value

theorem storeMetricLoop_accounted (m : Addr) (steps : ℕ) (mtP : Option Addr) :
    Keeps Accounted (storeMetricLoop conf m steps mtP) := by
  induction steps generalizing mtP with
  | zero =>
    cases mtP with
    | none => exact .pure _
    | some a => exact .throw _
  | succ steps ih =>
    cases mtP with
    | none => exact .pure _
    | some a =>
      apply (accounted_memory fun _ => readPoint_keeps _).bind
      intro point
      apply (storeValue_accounted m _ _).bind
      intro _
      exact (accounted_memory fun _ => freePoint_added a).bind fun _ => ih point.next

theorem storeIteration_accounted : Keeps Accounted (storeIteration conf) := by
  apply (accounted_memory fun _ => findLargestMetric_keeps).bind
  intro found
  cases found with
  | none => exact .pure _
  | some maxM =>
    apply (accounted_memory fun _ => readMetric_keeps _).bind
    intro metric
    apply (accounted_memory fun _ => .look fun mem _ => .pure mem).bind
    intro mem
    apply (storeMetricLoop_accounted maxM _ _).bind
    intro _
    apply (accounted_memory fun _ => storeMetric_added _ _).bind
    intro _
    apply (accounted_memory fun _ => storeMetric_added _ _).bind
    intro _
    exact accounted_memory fun _ => storeMetric_added _ _

/-- No line received has the name of the monitoring. -/
def Foreign (turn : Turn) : Prop :=
  match turn with
  | .receive metricLine => (scanMetricLine metricLine).metricName ≠ monitoringName
  | _ => True

instance : (turn : Turn) → Decidable (Foreign turn)
  | .receive _ => inferInstanceAs (Decidable (_ ≠ _))
  | .monitor _ => isTrue trivial
  | .write => isTrue trivial

theorem turnRun_accounted {turn : Turn} (foreign : Foreign turn) :
    Keeps Accounted (turnRun conf turn) := by
  cases turn with
  | receive metricLine =>
    rw [turnRun, protocolProcessMetricLine]
    split
    · exact accounted_memory fun _ => .throw _
    · exact addPoint_accounted foreign _ _
  | monitor timestamp => exact updateMonitoringMetrics_accounted timestamp
  | write => exact storeIteration_accounted

/-- In every run, wherever it returns or stops and whatever system calls fail: each point written
to the disk is in one report, or still in the counter. -/
theorem turnRuns_accounted (foreign : ∀ turn ∈ turns, Foreign turn) {w : World Whisper.Globals}
    (clean : w.globals.writes = []) (zero : w.globals.points = 0) :
    Ends (emptyMemory, w) (turnRuns conf turns) (fun _ s => Accounted s)
      (fun _ s => Accounted s) := by
  have all : Keeps Accounted (turnRuns conf turns) := by
    induction turns with
    | nil => exact .pure _
    | cons turn rest ih =>
      apply (turnRun_accounted (foreign turn List.mem_cons_self)).bind
      intro _
      exact ih fun t member => foreign t (List.mem_cons_of_mem _ member)
  apply all
  refine ⟨0, ?_⟩
  rw [clean, zero]
  simp [emptyMemory, reported]

end

/-- A point is received and written, and then the report of it. -/
def monitoredTurns : List Turn :=
  [.receive "a 1 61".toList, .write, .monitor 62, .write, .monitor 63]

def monitoredRun : Service Unit :=
  @turnRuns matchesAll (Whisper.soleRule [⟨60, 120⟩] ⟨[], 0, .average⟩) monitoredTurns

theorem turnRuns_accounted_witness : ∃ s, Yields monitoredRun (emptyMemory, Whisper.emptyWorld) () s ∧
    s.2.globals.writes.length = 2 ∧ Accounted s := by
  obtain ⟨_, run⟩ := Yields.of_resultOf (show resultOf (do
      monitoredRun
      return (← get).2.globals.writes.length) (emptyMemory, Whisper.emptyWorld) = some 2 by
    decide +kernel)
  obtain ⟨_, s, ran, looked⟩ := run.split
  obtain ⟨written, _⟩ := looked.unique (.bind (.get s) (.pure _ _))
  exact ⟨s, ran, written.symm, (@turnRuns_accounted matchesAll _ _ (by decide) _ rfl rfl).returns () s ran⟩

end Carbond.Daemon
