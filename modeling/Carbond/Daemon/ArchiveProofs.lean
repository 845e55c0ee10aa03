import Carbond.Daemon.DiskProofs

/-! From the values received to the first archive of each file, for metrics that are new on the
disk. What the writer has taken is there, and after enough turns it has taken everything. -/
namespace Carbond.Daemon
open Heap Posix Text Cache Fifo Whisper
variable {w : World Globals} {conf : CarbonConf} {name : CString} {cur : Retention}
variable {mem mem' : Memory} {entries : List Entry} {operations : List Operation}

section
variable [Platform]

/-- The points of a metric that has no file yet, in time order and not too far apart. -/
structure Arriving (conf : CarbonConf) (w : World Globals) (cur : Retention) (name : CString)
    (points : List (UInt32 × UInt64)) : Prop where
  ordinary : Ordinary (whisperFindRetention name conf.schema) cur
  aggregated : ∃ agg, whisperFindAggregation name conf.aggregation = some agg
  fresh : w.nodes (fileOf conf name) = none
  nonzero : ∀ call ∈ alignedCalls cur points, call.1 ≠ 0
  ordered : (alignedCalls cur points).Pairwise fun a b => a.1.toNat ≤ b.1.toNat
  short : ∀ early ∈ alignedCalls cur points, ∀ late ∈ alignedCalls cur points,
    (late.1.toNat - early.1.toNat) / cur.timePerPoint.toNat * 12 < 2 ^ 32

/-- The first archive of the file holds the newest values of these points. -/
def Shows (conf : CarbonConf) (cur : Retention) (name : CString) (points : List (UInt32 × UInt64))
    (w : World Globals) : Prop :=
  match (alignedCalls cur points).head?, (alignedCalls cur points).getLast? with
  | some first, some last => ∃ c, w.nodes (fileOf conf name) = some (.file c) ∧
      HoldsNewest (firstArchive (whisperFindRetention name conf.schema) cur)
        (alignedCalls cur points) first.1 last.1 c
  | _, _ => w.nodes (fileOf conf name) = none

theorem Arriving.before (arriving : Arriving conf w cur name (stored ++ later)) :
    Arriving conf w cur name stored := by
  have all : alignedCalls cur (stored ++ later) =
      alignedCalls cur stored ++ alignedCalls cur later := List.map_append
  have inside : ∀ call ∈ alignedCalls cur stored, call ∈ alignedCalls cur (stored ++ later) := by
    intro call member
    rw [all]
    exact List.mem_append_left _ member
  refine ⟨arriving.ordinary, arriving.aggregated, arriving.fresh, ?_, ?_, ?_⟩
  · exact fun call member => arriving.nonzero call (inside call member)
  · have ordered := arriving.ordered
    rw [all] at ordered
    exact (List.pairwise_append.mp ordered).1
  · exact fun early member late member' =>
      arriving.short early (inside early member) late (inside late member')

theorem Shows.of_same (shows : Shows conf cur name points w)
    (same : w'.nodes (fileOf conf name) = w.nodes (fileOf conf name)) :
    Shows conf cur name points w' := by
  rw [Shows, same]
  exact shows

/-- The points alone, on the disk as it was. -/
theorem Arriving.stores (arriving : Arriving conf w cur name points) (quiet : w.outcomes = [])
    (named : strtok '.' name ≠ []) (passable : Passable w (metricDirs conf.storageDir name))
    (clean : w.globals.writes = []) :
    ∃ w', Yields (whisperWriteValues conf name points) w () w' ∧ Shows conf cur name points w' := by
  cases points with
  | nil => exact ⟨w, .pure _ _, arriving.fresh⟩
  | cons point rest =>
    obtain ⟨agg, aggregated⟩ := arriving.aggregated
    obtain ⟨last, ends⟩ : ∃ last, (alignedCalls cur (point :: rest)).getLast? = some last :=
      ⟨_, List.getLast?_eq_some_getLast (List.cons_ne_nil _ _)⟩
    have short := arriving.short _ List.mem_cons_self _ (List.mem_of_getLast? ends)
    obtain ⟨_, w', run, settled, c, node, holds⟩ := (arriving.ordinary.windowedRun rfl aggregated
      ⟨quiet, named, arriving.fresh, passable⟩ clean rfl ends arriving.nonzero arriving.ordered
      short).returns_of_not_stops
    refine ⟨w', run, ?_⟩
    rw [Shows, ends]
    exact ⟨c, node, holdsNewest_of_represents holds⟩

/-- For each metric what the writer has taken is in its file. -/
theorem serviceRuns_shows (wellFormed : ∀ operation ∈ operations, operation.WellFormed)
    (addressed : Addressed conf (receivedNames operations) w) (clean : w.globals.writes = [])
    (cur : CString → Retention) (arriving : ∀ name ∈ receivedNames operations,
      Arriving conf w (cur name) name (under (operations.flatMap Operation.received) name)) :
    ∃ mem entries w', Yields (runOperations operations) emptyMemory () mem ∧
      Yields (serviceRuns conf operations) (emptyMemory, w) () (mem, w') ∧
      Integrity mem entries ∧ mem.added = operations.flatMap Operation.received ∧
      ∀ name ∈ receivedNames operations,
        Shows conf (cur name) name (under mem.handed name) w' := by
  obtain ⟨mem, entries, run, integrity, added, ends⟩ := serviceRuns_ends wellFormed addressed
  have alone : ∀ name ∈ receivedNames operations, ∃ s',
      Yields (whisperWriteValues conf name (under mem.handed name)) w () s' ∧
      Shows conf (cur name) name (under mem.handed name) s' := by
    intro name member
    have arrived := arriving name member
    rw [← added, ← integrity.delivered name] at arrived
    exact arrived.before.stores addressed.quiet (addressed.named name member)
      (addressed.passable name member) clean
  obtain ⟨_, ⟨mem', w'⟩, served, rfl, files⟩ := (ends.weaken (fun _ _ known => known)
    fun e _ stopped => by
      obtain ⟨name, member, s', stop⟩ := stopped
      obtain ⟨s, returned, _⟩ := alone name member
      cases returned.symm.trans stop).returns_of_not_stops
  refine ⟨_, entries, w', run, served, integrity, added, fun name member => ?_⟩
  obtain ⟨s', node, stored⟩ := files name member
  obtain ⟨s, returned, shows⟩ := alone name member
  obtain ⟨_, rfl⟩ := stored.unique returned
  exact shows.of_same node.symm

end

theorem twoReceived_arriving : ∀ name ∈ @receivedNames matchesAll twoReceived,
    @Arriving matchesAll twoConf emptyWorld ⟨60, 120⟩ name
      (under (twoReceived.flatMap (@Operation.received matchesAll)) name) := by
  intro name member
  have checks : ∀ name ∈ @receivedNames matchesAll twoReceived,
      let calls := alignedCalls ⟨60, 120⟩
        (under (twoReceived.flatMap (@Operation.received matchesAll)) name)
      (∀ call ∈ calls, call.1 ≠ 0) ∧ calls.Pairwise (fun a b => a.1.toNat ≤ b.1.toNat) ∧
        ∀ early ∈ calls, ∀ late ∈ calls, (late.1.toNat - early.1.toNat) / 60 * 12 < 2 ^ 32 := by
    decide
  obtain ⟨nonzero, ordered, short⟩ := checks name member
  exact @Arriving.mk matchesAll _ _ _ _ _ ordinary_two ⟨_, rfl⟩ rfl nonzero ordered short

theorem twoReceived_few (name : CString) :
    (under (twoReceived.flatMap (@Operation.received matchesAll)) name).length < 2 ^ 32 := by
  rw [under, List.length_map]
  exact lt_of_le_of_lt (List.length_filter_le _ _) (by decide)

end Carbond.Daemon
