import Carbond.Backlog.Levels
import Carbond.Cache.DeliveryProofs
import Carbond.Cache.DrainProofs
import Mathlib.Tactic.NormNum

/-! How many points wait in the database, if the writer gets its turns. The counter of a metric
cannot wrap then, so that the largest metric by counters is the largest one. -/
namespace Carbond.Cache
open Heap Posix Text Backlog
variable {mem : Memory} {entries : List Entry} {names : Finset CString} {k taken : ℕ}

/-- How many points wait under a name. -/
def waiting (entries : List Entry) (name : CString) : ℕ := (cachedUnder entries name).length

/-- Between two turns of the writer at most `k` points come in. -/
def Paced (k : ℕ) : ℕ → List Operation → Prop
  | _, [] => True
  | taken, .line _ :: rest => taken < k ∧ Paced k (taken + 1) rest
  | taken, .monitoring _ _ _ :: rest => taken < k ∧ Paced k (taken + 1) rest
  | _, .write :: rest => Paced k 0 rest

/-- The most points a name can have waiting. -/
def longest (k n : ℕ) : ℚ := k * (1 + harmonic (n - 1))

/-- The lists are sound, all names are known, and every set of them holds its share. -/
structure Tame (names : Finset CString) (k taken : ℕ) (mem : Memory) (entries : List Entry) :
    Prop where
  stands : Stands mem entries
  known : ∀ e ∈ entries, e.metric.name ∈ names
  levelled : Levelled names k taken (waiting entries)

theorem tame_empty (names : Finset CString) (k : ℕ) : Tame names k 0 emptyMemory [] where
  stands := stands_empty
  known _ member := absurd member List.not_mem_nil
  levelled := levelled_empty names k fun _ _ => rfl

theorem waiting_entry (stands : Stands mem entries) (member : e ∈ entries) :
    waiting entries e.metric.name = e.nodes.length := by
  obtain ⟨before, after, rfl⟩ := List.append_of_mem member
  rw [waiting, cachedUnder_self stands.names, Entry.cached, List.length_map]

theorem waiting_absent (absent : ∀ e ∈ entries, e.metric.name ≠ name) : waiting entries name = 0 := by
  rw [waiting, cachedUnder_unnamed absent, List.length_nil]

theorem Tame.length_le (tame : Tame names k taken mem entries) (paced : taken ≤ k)
    (member : e ∈ entries) : (e.nodes.length : ℚ) ≤ longest k names.card := by
  rw [← waiting_entry tame.stands member]
  exact tame.levelled.bound paced (tame.known e member)

theorem Tame.counted (tame : Tame names k taken mem entries) (paced : taken ≤ k)
    (countable : longest k names.card < 2 ^ 32) : Counted entries := by
  intro e member
  have short := (tame.length_le paced member).trans_lt countable
  exact_mod_cast short

theorem Tame.add (tame : Tame names k taken mem entries) (named : name ∈ names)
    (timestamp : UInt32) (value : UInt64) : ∃ mem' entries',
    Yields (addPoint name timestamp value) mem () mem' ∧ Tame names k (taken + 1) mem' entries' := by
  obtain ⟨mem', entries', run, stands, cached, metrics, _, _⟩ :=
    addPoint_yields tame.stands name timestamp value
  refine ⟨mem', entries', run, stands, fun e member => ?_, ?_⟩
  · have here : e.metric.name ∈ metricNames entries' := List.mem_map_of_mem member
    rw [metrics, withName] at here
    split at here
    · obtain ⟨e', member', same⟩ := List.mem_map.mp here
      exact same ▸ tame.known e' member'
    · rcases List.mem_append.mp here with old | new
      · obtain ⟨e', member', same⟩ := List.mem_map.mp old
        exact same ▸ tame.known e' member'
      · exact List.mem_singleton.mp new ▸ named
  · have grown : waiting entries' = Function.update (waiting entries) name (waiting entries name + 1) := by
      funext other
      rw [waiting, cached]
      by_cases same : other = name
      · subst same
        simp [waiting]
      · rw [Function.update_of_ne same, Function.update_of_ne same, waiting]
    rw [grown]
    exact tame.levelled.grow name

theorem Tame.write (tame : Tame names k taken mem entries) (paced : taken ≤ k)
    (countable : longest k names.card < 2 ^ 32) : ∃ mem' entries',
    Yields writerIteration mem () mem' ∧ Tame names k 0 mem' entries' := by
  have stands := tame.stands
  have counted := tame.counted paced countable
  obtain ⟨found, search, result⟩ := findLargestMetric_yields stands
  obtain ⟨rfl, zero⟩ | ⟨before, e, after, rfl, rfl, _, front, back⟩ := result
  · refine ⟨mem, entries, .bind search (.pure _ _), stands, tame.known, levelled_empty _ _ ?_⟩
    intro name _
    by_cases absent : ∀ e ∈ entries, e.metric.name ≠ name
    · exact waiting_absent absent
    · push Not at absent
      obtain ⟨e, member, rfl⟩ := absent
      rw [waiting_entry stands member, ← size_eq stands counted member, Entry.size, zero e member]
      rfl
  · obtain ⟨mem', e', run, stands', same, empty, _, _⟩ := writeMetric_yields stands
    have here : e ∈ before ++ e :: after := by simp
    refine ⟨mem', before ++ e' :: after, .bind search run, stands', fun other member => ?_, ?_⟩
    · rcases List.mem_append.mp member with inFront | behind
      · exact tame.known other (List.mem_append_left _ inFront)
      · rcases List.mem_cons.mp behind with rfl | behind
        · exact same ▸ tame.known e here
        · exact tame.known other (by simp [behind])
    · have emptied : waiting (before ++ e' :: after) =
          Function.update (waiting (before ++ e :: after)) e.metric.name 0 := by
        funext other
        rw [waiting, cachedUnder_replaced stands.names same, empty]
        by_cases here : other = e.metric.name
        · subst here
          simp
        · rw [Function.update_of_ne here, Function.update_of_ne here, waiting]
      rw [emptied]
      apply tame.levelled.flush paced (tame.known e here)
      intro name _
      by_cases absent : ∀ e' ∈ before ++ e :: after, e'.metric.name ≠ name
      · rw [waiting_absent absent]
        exact Nat.zero_le _
      · push Not at absent
        obtain ⟨other, member, rfl⟩ := absent
        rw [waiting_entry stands member, waiting_entry stands here, ← size_eq stands counted member,
          ← size_eq stands counted here, Entry.size, Entry.size]
        rcases List.mem_append.mp member with inFront | behind
        · exact Nat.le_of_lt (UInt32.lt_iff_toNat_lt.mp (front other inFront))
        · rcases List.mem_cons.mp behind with rfl | behind
          · exact Nat.le_refl _
          · exact UInt32.le_iff_toNat_le.mp (back other behind)

theorem Tame.total_le (tame : Tame names k taken mem entries) (paced : taken ≤ k) :
    (entries.map fun e => e.nodes.length).sum ≤ k * names.card := by
  have nodup : (metricNames entries).Nodup := tame.stands.names
  have same : (entries.map fun e => e.nodes.length) = (metricNames entries).map (waiting entries) := by
    rw [metricNames, List.map_map]
    exact List.map_congr_left fun e member => (waiting_entry tame.stands member).symm
  rw [same, ← List.sum_toFinset _ nodup]
  refine (Finset.sum_le_sum_of_subset fun name member => ?_).trans (tame.levelled.total paced)
  obtain ⟨e, here, rfl⟩ := List.mem_map.mp (List.mem_toFinset.mp member)
  exact tame.known e here

section
variable [Platform] {operations : List Operation}

/-- Every operation's point has a known name. -/
def NamedIn (names : Finset CString) (operations : List Operation) : Prop :=
  ∀ operation ∈ operations, ∀ point ∈ operation.received, point.1 ∈ names

theorem Tame.runOperations (tame : Tame names k taken mem entries) (within : taken ≤ k)
    (countable : longest k names.card < 2 ^ 32)
    (wellFormed : ∀ operation ∈ operations, operation.WellFormed)
    (named : NamedIn names operations) (paced : Paced k taken operations) :
    ∃ mem' entries' taken', Yields (runOperations operations) mem () mem' ∧ taken' ≤ k ∧
      Tame names k taken' mem' entries' := by
  induction operations generalizing mem entries taken with
  | nil => exact ⟨mem, entries, taken, .pure _ _, within, tame⟩
  | cons operation rest ih =>
    have wellFormed' : ∀ operation ∈ rest, operation.WellFormed :=
      fun operation member => wellFormed operation (List.mem_cons_of_mem _ member)
    have named' : NamedIn names rest :=
      fun operation member => named operation (List.mem_cons_of_mem _ member)
    have head := wellFormed operation List.mem_cons_self
    have mine := named operation List.mem_cons_self
    cases operation with
    | line metricLine =>
      have fits : NameFits metricLine := fun long => Nat.not_le_of_lt head.2 long.2
      obtain ⟨mem₁, entries₁, first, tame₁⟩ := tame.add (mine _ List.mem_cons_self)
        (scanMetricLine metricLine).timestamp (scanMetricLine metricLine).value
      obtain ⟨mem₂, entries₂, taken₂, run, bounded⟩ := ih tame₁ paced.1 wellFormed' named' paced.2
      have processed : Yields (Operation.line metricLine).run mem () mem₁ := by
        rw [Operation.run, protocolProcessMetricLine, if_neg fits]
        exact first
      exact ⟨mem₂, entries₂, taken₂, .bind processed run, bounded⟩
    | monitoring name timestamp value =>
      obtain ⟨mem₁, entries₁, first, tame₁⟩ := tame.add (mine _ List.mem_cons_self) timestamp value
      obtain ⟨mem₂, entries₂, taken₂, run, bounded⟩ := ih tame₁ paced.1 wellFormed' named' paced.2
      exact ⟨mem₂, entries₂, taken₂, .bind first run, bounded⟩
    | write =>
      obtain ⟨mem₁, entries₁, first, tame₁⟩ := tame.write within countable
      obtain ⟨mem₂, entries₂, taken₂, run, bounded⟩ :=
        ih tame₁ (Nat.zero_le k) wellFormed' named' paced
      exact ⟨mem₂, entries₂, taken₂, .bind first run, bounded⟩

end

end Carbond.Cache
