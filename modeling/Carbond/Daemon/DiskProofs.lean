import Carbond.Daemon.StorageProofs
import Carbond.Whisper.IsolationProofs
import Carbond.Whisper.NewestProofs

/-! The daemon from the values it receives to the files on its disk: each file is what the points
of its metric alone make of it, and the points missing there are those still in memory. -/
namespace Carbond.Daemon
open Heap Posix Text Cache Fifo Whisper
variable {w s : World Globals} {conf : CarbonConf} {names : List CString}
variable {calls : List (CString × UInt32 × UInt64)}

/-- The file of a metric. -/
abbrev fileOf (conf : CarbonConf) (name : CString) : Path :=
  whisperMetricFilename conf.storageDir name

/-- All system calls succeed, each metric has a file of its own, and no file is in the way of a
directory. -/
structure Addressed (conf : CarbonConf) (names : List CString) (w : World Globals) : Prop where
  quiet : w.outcomes = []
  named : ∀ name ∈ names, strtok '.' name ≠ []
  own : ∀ name ∈ names, ∀ other ∈ names, fileOf conf name = fileOf conf other → name = other
  passable : ∀ name ∈ names, Passable w (metricDirs conf.storageDir name)

/-- Calls of the writer, all of whose system calls succeed. -/
def requestsOf (conf : CarbonConf) (calls : List (CString × UInt32 × UInt64)) : List Request :=
  calls.map fun call => ⟨conf, call.1, call.2.1, call.2.2, []⟩

theorem requestsOf_under (own : ∀ call ∈ calls, fileOf conf call.1 = fileOf conf name → call.1 = name) :
    requestsTo (fileOf conf name) (requestsOf conf calls) =
      requestsOf conf ((under calls name).map fun point => (name, point)) := by
  rw [requestsTo, requestsOf, List.filter_map, map_under, requestsOf]
  congr 1
  apply List.filter_congr
  intro call member
  rw [Function.comp_apply, decide_eq_decide]
  exact ⟨own call member, congrArg (fileOf conf)⟩

theorem Addressed.separate (addressed : Addressed conf names w)
    (known : ∀ call ∈ calls, call.1 ∈ names) : Separate (requestsOf conf calls) := by
  intro request member other member'
  obtain ⟨call, asked, rfl⟩ := List.mem_map.mp member
  obtain ⟨call', _, rfl⟩ := List.mem_map.mp member'
  exact metricFilename_not_dir (addressed.named _ (known call asked)) _ _

theorem Addressed.ready (addressed : Addressed conf names w)
    (known : ∀ call ∈ calls, call.1 ∈ names) : Ready (requestsOf conf calls) w := by
  intro request member dir inside
  obtain ⟨call, asked, rfl⟩ := List.mem_map.mp member
  refine .inr ⟨fun other member' => ?_, addressed.passable _ (known call asked) dir inside⟩
  obtain ⟨_, _, rfl⟩ := List.mem_map.mp member'
  rfl

section
variable [Platform]

theorem storePoints_eq (quiet : w.outcomes = []) :
    storePoints conf calls w = serveAll (requestsOf conf calls) w := by
  induction calls generalizing w with
  | nil => rfl
  | cons call rest ih =>
    obtain ⟨name, timestamp, value⟩ := call
    have served := serve_eq ⟨conf, name, timestamp, value, []⟩ w
    rw [show { w with outcomes := [] } = w from by rw [← quiet]] at served
    have touches := whisperWriteValue_touches conf name timestamp value w
    change (Whisper.whisperWriteValue conf name timestamp value >>= fun _ =>
      storePoints conf rest) w = (serve _ >>= fun _ => serveAll (requestsOf conf rest)) w
    cases executed : Whisper.whisperWriteValue conf name timestamp value w with
    | ok r t =>
      rw [Yields.rest_eq executed, Yields.rest_eq (served.trans executed)]
      have left := (touches.returns r t executed).2
      rw [quiet] at left
      exact ih (List.suffix_nil.mp left)
    | error e t => rw [stops_bind executed, stops_bind (served.trans executed)]

theorem storePoints_own (points : List (UInt32 × UInt64)) :
    storePoints conf (points.map fun point => (name, point)) =
      whisperWriteValues conf name points := by
  induction points with
  | nil => rfl
  | cons point rest ih =>
    obtain ⟨timestamp, value⟩ := point
    simp only [List.map_cons, storePoints, whisperWriteValues, ih]

/-- The calls for one file, from the disk as it was. -/
theorem own_requests (addressed : Addressed conf names w) (known : ∀ call ∈ calls, call.1 ∈ names)
    (member : name ∈ names) : serveAll (requestsTo (fileOf conf name) (requestsOf conf calls)) w =
      whisperWriteValues conf name (under calls name) w := by
  rw [requestsOf_under fun call inside => addressed.own _ (known call inside) _ member,
    ← storePoints_eq addressed.quiet, storePoints_own]

/-- Calls for many metrics make of each file what its own calls make of it. -/
theorem storePoints_ends (addressed : Addressed conf names w)
    (known : ∀ call ∈ calls, call.1 ∈ names) : Ends w (storePoints conf calls)
      (fun _ s => ∀ name ∈ names, ∃ s', s'.nodes (fileOf conf name) = s.nodes (fileOf conf name) ∧
        Yields (whisperWriteValues conf name (under calls name)) w () s')
      (fun e _ => ∃ name ∈ names, ∃ s',
        whisperWriteValues conf name (under calls name) w = .error e s') := by
  refine .of_eq (storePoints_eq addressed.quiet) ?_
  constructor
  · intro _ s run name member
    -- A name without a call is one more of the names there could be calls for.
    have known' : ∀ call ∈ (name, 0, 0) :: calls, call.1 ∈ names := List.forall_mem_cons.mpr ⟨member, known⟩
    have named : ∃ target ∈ requestsOf conf ((name, 0, 0) :: calls), target.path = fileOf conf name :=
      ⟨_, List.mem_cons_self, rfl⟩
    obtain ⟨s', run', isolated⟩ := ((addressed.ready known').isolated (fileOf conf name)).run
      (addressed.separate known') named (fun _ => List.mem_cons_of_mem _) run
    exact ⟨s', isolated.file, (own_requests addressed known member).symm.trans run'⟩
  · intro e s stopped
    obtain ⟨served, failing, later, t, split, run, stop⟩ := serveAll_stops stopped
    obtain ⟨s', _, stop'⟩ :=
      (addressed.ready known).stops (addressed.separate known) split run stop
    have inside : failing ∈ requestsOf conf calls := by
      rw [split]
      simp
    obtain ⟨call, asked, rfl⟩ := List.mem_map.mp inside
    have member := known call asked
    exact ⟨call.1, member, s', (own_requests addressed known member).symm.trans stop'⟩

/-! ### The daemon with its disk -/

/-- The names of the metrics that a run receives values for. -/
def receivedNames (operations : List Operation) : List CString :=
  (operations.flatMap Operation.received).map Prod.fst

theorem serviceRuns_ends (wellFormed : ∀ operation ∈ operations, operation.WellFormed)
    (addressed : Addressed conf (receivedNames operations) w) :
    ∃ mem entries, Yields (runOperations operations) emptyMemory () mem ∧ Integrity mem entries ∧
      mem.added = operations.flatMap Operation.received ∧
      Ends (emptyMemory, w) (serviceRuns conf operations)
        (fun _ s => s.1 = mem ∧ ∀ name ∈ receivedNames operations, ∃ s',
          s'.nodes (fileOf conf name) = s.2.nodes (fileOf conf name) ∧
          Yields (whisperWriteValues conf name (under mem.handed name)) w () s')
        (fun e _ => ∃ name ∈ receivedNames operations, ∃ s',
          whisperWriteValues conf name (under mem.handed name) w = .error e s') := by
  obtain ⟨mem, entries, run, integrity, added⟩ := integrity_empty.runOperations wellFormed
  have performs : Performs conf _ _ _ := serviceRuns_performs integrity_empty wellFormed run
  obtain ⟨calls, handed, carries⟩ := performs
  obtain rfl : mem.handed = calls := handed
  have known : ∀ call ∈ mem.handed, call.1 ∈ receivedNames operations := by
    intro call member
    have inside := integrity.delivered.subset member
    rw [added] at inside
    exact List.mem_map_of_mem inside
  exact ⟨mem, entries, run, integrity, added, carries.ends (storePoints_ends addressed known)⟩

end

/-- Two metrics, one of which stays in memory. -/
def twoReceived : List Operation :=
  [.monitoring "a".toList 61 1, .monitoring "a".toList 185 2, .monitoring "b.c".toList 70 3, .write]

def twoConf : CarbonConf := soleRule [⟨60, 120⟩, ⟨120, 240⟩] ⟨[], 0, .average⟩

theorem twoReceived_addressed : Addressed twoConf (@receivedNames matchesAll twoReceived) emptyWorld where
  quiet := rfl
  named := by decide
  own := by decide +kernel
  passable _ _ _ _ _ found := by cases found

end Carbond.Daemon
