import Carbond.Cache.Database
import Carbond.Fifo.Delivery

/-! The database stands in memory as a list of metrics with their lists of points, and receiving a
point appends it to the list of its metric. -/
namespace Carbond.Cache
open Heap Posix Text

/-- A metric in memory, with the nodes of its points. -/
structure Entry where
  addr : Addr
  metric : Metric
  nodes : List (Addr × MetricPoint)

namespace Entry

def cell (e : Entry) : Addr × Metric := (e.addr, e.metric)

def addresses (e : Entry) : List Addr := e.nodes.map Prod.fst

def cached (e : Entry) : List (UInt32 × UInt64) :=
  e.nodes.map fun node => (node.2.timestamp, node.2.value)

/-- The points are a list with its last node and its length modulo 2^32. -/
structure Holds (e : Entry) (points : Cells MetricPoint) : Prop where
  queue : Queue points MetricPoint.next e.metric.points e.metric.last e.nodes
  counted : e.metric.nbPoints = UInt32.ofNat e.nodes.length

end Entry

/-- The metrics are a list with its last node, no name occurs twice, and no two metrics share a
point. -/
structure Stands (mem : Memory) (entries : List Entry) : Prop where
  list : Queue mem.metrics Metric.next mem.db.first mem.db.last (entries.map Entry.cell)
  holds : ∀ e ∈ entries, e.Holds mem.points
  apart : entries.Pairwise fun e e' => e.addresses.Disjoint e'.addresses
  names : (entries.map fun e => e.metric.name).Nodup

/-- Nothing was added or handed on. -/
def SameHistory (mem mem' : Memory) : Prop := mem'.added = mem.added ∧ mem'.handed = mem.handed

/-- The points waiting under a name. -/
def cachedUnder (entries : List Entry) (name : CString) : List (UInt32 × UInt64) :=
  (entries.filter fun e => e.metric.name = name).flatMap Entry.cached

/-- The names of the metrics, in the order of their list. -/
def metricNames (entries : List Entry) : List CString := entries.map fun e => e.metric.name

/-- The names once there is a metric of this name. -/
def withName (names : List CString) (name : CString) : List CString :=
  if name ∈ names then names else names ++ [name]

variable {mem : Memory} {entries before after : List Entry} {e e' : Entry}

theorem stands_empty : Stands emptyMemory [] :=
  ⟨.empty, nofun, .nil, List.nodup_nil⟩

/-- What stands in a memory is determined by it. -/
theorem Stands.unique {entries' : List Entry} (first : Stands mem entries)
    (second : Stands mem entries') : entries = entries' := by
  have cells := first.list.segment.unique second.list.segment
  have holds := first.holds
  have holds' := second.holds
  clear first second
  induction entries generalizing entries' with
  | nil => exact (List.map_eq_nil_iff.mp cells.symm).symm
  | cons e rest ih =>
    cases entries' with
    | nil => contradiction
    | cons e' rest' =>
      obtain ⟨head, tail⟩ := List.cons.inj cells
      obtain ⟨addr, metric, nodes⟩ := e
      obtain ⟨addr', metric', nodes'⟩ := e'
      obtain ⟨rfl, rfl⟩ := Prod.mk.inj head
      have mine := (holds _ List.mem_cons_self).queue.segment
      obtain rfl := mine.unique (holds' _ List.mem_cons_self).queue.segment
      rw [ih tail (fun e member => holds e (List.mem_cons_of_mem _ member))
        fun e member => holds' e (List.mem_cons_of_mem _ member)]

/-! ### Names -/

theorem cachedUnder_append (first second : List Entry) (name : CString) :
    cachedUnder (first ++ second) name = cachedUnder first name ++ cachedUnder second name := by
  simp [cachedUnder]

theorem cachedUnder_cons_same (e : Entry) (rest : List Entry) :
    cachedUnder (e :: rest) e.metric.name = e.cached ++ cachedUnder rest e.metric.name := by
  simp [cachedUnder]

theorem cachedUnder_cons_other (other : e.metric.name ≠ name) (rest : List Entry) :
    cachedUnder (e :: rest) name = cachedUnder rest name := by
  simp [cachedUnder, other]

theorem cachedUnder_unnamed (unnamed : ∀ e ∈ entries, e.metric.name ≠ name) :
    cachedUnder entries name = [] := by
  induction entries with
  | nil => rfl
  | cons e rest ih =>
    rw [cachedUnder_cons_other (unnamed e List.mem_cons_self)]
    exact ih fun e' member => unnamed e' (List.mem_cons_of_mem _ member)

theorem names_apart (names : ((before ++ e :: after).map fun e => e.metric.name).Nodup) :
    ∀ e' ∈ before ++ after, e'.metric.name ≠ e.metric.name := by
  rw [List.map_append, List.map_cons, List.nodup_append, List.nodup_cons] at names
  obtain ⟨_, ⟨behind, _⟩, disjoint⟩ := names
  intro e' member
  rcases List.mem_append.mp member with front | back
  · exact disjoint _ (List.mem_map_of_mem front) _ List.mem_cons_self
  · exact fun same => behind (same ▸ List.mem_map_of_mem back)

/-- With unique names, the queue of a name is the queue of its metric. -/
theorem cachedUnder_replaced (names : ((before ++ e :: after).map fun e => e.metric.name).Nodup)
    (same : e'.metric.name = e.metric.name) : cachedUnder (before ++ e' :: after) =
      Function.update (cachedUnder (before ++ e :: after)) e.metric.name e'.cached := by
  have others := names_apart names
  funext name
  by_cases here : name = e.metric.name
  · subst here
    have front := cachedUnder_unnamed fun e' member => others e' (List.mem_append_left _ member)
    have back := cachedUnder_unnamed fun e' member => others e' (List.mem_append_right _ member)
    rw [Function.update_self, cachedUnder_append, front, ← same, cachedUnder_cons_same, same, back]
    simp
  · rw [Function.update_of_ne here, cachedUnder_append, cachedUnder_append,
      cachedUnder_cons_other (Ne.symm here), cachedUnder_cons_other (same ▸ Ne.symm here)]

theorem cachedUnder_self (names : ((before ++ e :: after).map fun e => e.metric.name).Nodup) :
    cachedUnder (before ++ e :: after) e.metric.name = e.cached := by
  rw [cachedUnder_replaced names rfl, Function.update_self]

/-! ### Replacing a metric -/

theorem mem_middle {other : Entry} (member : other ∈ before ++ after) :
    other ∈ before ++ e :: after :=
  List.mem_append.mpr ((List.mem_append.mp member).imp_right (List.mem_cons_of_mem e))

theorem Stands.others (stands : Stands mem (before ++ e :: after)) :
    ∀ other ∈ before ++ after, e.addresses.Disjoint other.addresses := by
  exact (List.pairwise_cons.mp ((List.pairwise_middle List.disjoint_symm).mp stands.apart)).1

/-- Another state of one metric, in a memory where the points of the others are untouched. -/
theorem Stands.replace {mem' : Memory} (stands : Stands mem (before ++ e :: after))
    (list : Queue mem'.metrics Metric.next mem'.db.first mem'.db.last
      ((before ++ e' :: after).map Entry.cell))
    (holds : e'.Holds mem'.points) (name : e'.metric.name = e.metric.name)
    (same : ∀ other ∈ before ++ after, ∀ a ∈ other.addresses,
      mem'.points.cells a = mem.points.cells a)
    (apart : ∀ other ∈ before ++ after, e'.addresses.Disjoint other.addresses) :
    Stands mem' (before ++ e' :: after) := by
  refine ⟨list, ?_, ?_, ?_⟩
  · intro other member
    rcases List.mem_append.mp member with front | back
    · have old := stands.holds other (List.mem_append_left _ front)
      exact ⟨old.queue.congr fun node known => same other (List.mem_append_left _ front) node.1
        (List.mem_map_of_mem known), old.counted⟩
    · rcases List.mem_cons.mp back with rfl | back
      · exact holds
      · have old := stands.holds other (by simp [back])
        exact ⟨old.queue.congr fun node known => same other (List.mem_append_right _ back) node.1
          (List.mem_map_of_mem known), old.counted⟩
  · have rest := (List.pairwise_cons.mp ((List.pairwise_middle List.disjoint_symm).mp stands.apart)).2
    exact (List.pairwise_middle List.disjoint_symm).mpr (List.pairwise_cons.mpr ⟨apart, rest⟩)
  · have names := stands.names
    rwa [List.map_append, List.map_cons, ← name, ← List.map_cons (f := fun e : Entry => e.metric.name),
      ← List.map_append] at names

/-! ### Access through pointers -/

theorem readMetric_yields (cell : mem.metrics.cells a = some m) :
    Yields (readMetric (some a)) mem m mem := by
  refine .bind (.get mem) ?_
  simp only [cell]
  exact .pure _ _

theorem readPoint_yields (cell : mem.points.cells a = some p) :
    Yields (readPoint (some a)) mem p mem := by
  refine .bind (.get mem) ?_
  simp only [cell]
  exact .pure _ _

theorem storeMetric_yields (cell : mem.metrics.cells a = some m) (f : Metric → Metric) :
    Yields (storeMetric a f) mem () { mem with metrics := mem.metrics.modify a f } :=
  .bind (readMetric_yields cell) (.update _ _)

theorem storePoint_yields (cell : mem.points.cells a = some p) (f : MetricPoint → MetricPoint) :
    Yields (storePoint a f) mem () { mem with points := mem.points.modify a f } :=
  .bind (readPoint_yields cell) (.update _ _)

/-- A store into a metric in the list. -/
theorem storeMetric_listed (mem : Memory)
    (list : Queue mem.metrics Metric.next first last (xs ++ (a, m) :: ys)) (f : Metric → Metric)
    (kept : (f m).next = m.next) :
    Yields (storeMetric a f) mem () { mem with metrics := mem.metrics.modify a f } ∧
      Queue (mem.metrics.modify a f) Metric.next first last (xs ++ (a, f m) :: ys) := by
  have cell := list.segment.cell (a, m) (by simp)
  exact ⟨storeMetric_yields cell f, list.modify kept⟩

/-! ### Finding a metric -/

theorem sameName_iff : sameName mName name = true ↔ mName = name := by
  simp only [sameName, decide_eq_true_eq, Bool.decide_and, Bool.and_eq_true]
  constructor
  · rintro ⟨length, prefixes⟩
    rw [List.take_of_length_le (by omega), List.take_of_length_le (by omega)] at prefixes
    exact prefixes.symm
  · rintro rfl
    exact ⟨rfl, rfl⟩

theorem getMetricLoop_yields (segment : Segment mem.metrics Metric.next p (entries.map Entry.cell) none)
    (enough : entries.length ≤ steps) : Yields (getMetricLoop mName steps p) mem
      ((entries.find? fun e => e.metric.name = mName).map Entry.addr) mem := by
  induction entries generalizing p steps with
  | nil =>
    obtain rfl : p = none := segment
    cases steps with
    | zero => exact .pure _ _
    | succ steps => exact .pure _ _
  | cons e rest ih =>
    obtain ⟨rfl, cell, tail⟩ := segment
    cases steps with
    | zero => exact absurd enough (Nat.not_succ_le_zero _)
    | succ steps =>
      refine .bind (readMetric_yields cell) ?_
      by_cases found : e.metric.name = mName
      · rw [if_pos (sameName_iff.mpr found.symm), List.find?_cons_of_pos (by simpa using found)]
        exact .pure _ _
      · rw [if_neg (fun same => found (sameName_iff.mp same).symm),
          List.find?_cons_of_neg (by simpa using found)]
        exact ih tail (Nat.le_of_succ_le_succ enough)

theorem getMetric_yields (stands : Stands mem entries) (mName : CString) : Yields (getMetric mName) mem
    ((entries.find? fun e => e.metric.name = mName).map Entry.addr) mem := by
  have enough := stands.list.segment.length_le
  rw [List.length_map] at enough
  exact .bind (.get mem) (getMetricLoop_yields stands.list.segment enough)

/-! ### Appending a point -/

theorem ofNat_succ (n : ℕ) : UInt32.ofNat (n + 1) = UInt32.ofNat n + 1 := UInt32.ofNat_add n 1

/-- The two stores that end an append. -/
theorem storeLast_yields (mem : Memory) (list : Queue mem.metrics Metric.next mem.db.first mem.db.last
      (xs ++ (a, m) :: ys)) (n : Addr) :
    ∃ metrics, Yields (do
        storeMetric a fun metric => { metric with last := some n }
        storeMetric a fun metric => { metric with nbPoints := metric.nbPoints + 1 })
      mem () { mem with metrics := metrics } ∧
      Queue metrics Metric.next mem.db.first mem.db.last
        (xs ++ (a, { m with last := some n, nbPoints := m.nbPoints + 1 }) :: ys) := by
  obtain ⟨first, list⟩ := storeMetric_listed _ list (fun metric => { metric with last := some n }) rfl
  let mem₁ : Memory :=
    { mem with metrics := mem.metrics.modify a fun metric => { metric with last := some n } }
  obtain ⟨second, list⟩ := storeMetric_listed mem₁ list
    (fun metric => { metric with nbPoints := metric.nbPoints + 1 }) rfl
  exact ⟨_, .bind first second, list⟩

/-- The point becomes the first of its metric. -/
theorem addFirstPoint_yields (stands : Stands mem (before ++ e :: after))
    (bare : e.metric.last = none) (cell : mem.points.cells n = some point)
    (ends : point.next = none) (new : ∀ other ∈ before ++ e :: after, n ∉ other.addresses) :
    ∃ mem' e', Yields (addDatabaseMetricPoint e.addr n) mem () mem' ∧
      Stands mem' (before ++ e' :: after) ∧ e'.metric.name = e.metric.name ∧
      e'.cached = e.cached ++ [(point.timestamp, point.value)] ∧ SameHistory mem mem' := by
  have holds := stands.holds e (by simp)
  have empty := holds.queue.last_eq_none.mp bare
  have list := stands.list
  rw [List.map_append, List.map_cons] at list
  have here := readMetric_yields (list.segment.cell e.cell (by simp))
  obtain ⟨first, list⟩ := storeMetric_listed _ list
    (fun metric => { metric with points := some n }) rfl
  let mem₁ : Memory :=
    { mem with metrics := mem.metrics.modify e.addr fun metric => { metric with points := some n } }
  obtain ⟨metrics, ended, list⟩ := storeLast_yields mem₁ list n
  let e' : Entry :=
    { addr := e.addr
      metric := ⟨e.metric.name, e.metric.nbPoints + 1, some n, some n, e.metric.next⟩
      nodes := [(n, point)] }
  refine ⟨{ mem₁ with metrics := metrics }, e', .bind here ?_, ?_, rfl, ?_, rfl, rfl⟩
  · simp only [Entry.cell, bare]
    exact .bind first ended
  · refine stands.replace (by simpa [Entry.cell, e'] using list) ⟨.start cell ends, ?_⟩ rfl
      (fun _ _ _ _ => rfl) ?_
    · simp [e', holds.counted, empty]
    · intro other member a here there
      obtain rfl := List.mem_singleton.mp here
      exact new other (mem_middle member) there
  · simp [e', Entry.cached, empty]

/-- The point is linked behind the last one of its metric. -/
theorem addNextPoint_yields (stands : Stands mem (before ++ e :: after))
    (final : e.metric.last = some last) (cell : mem.points.cells n = some point)
    (ends : point.next = none) (new : ∀ other ∈ before ++ e :: after, n ∉ other.addresses) :
    ∃ mem' e', Yields (addDatabaseMetricPoint e.addr n) mem () mem' ∧
      Stands mem' (before ++ e' :: after) ∧ e'.metric.name = e.metric.name ∧
      e'.cached = e.cached ++ [(point.timestamp, point.value)] ∧ SameHistory mem mem' := by
  have holds := stands.holds e (by simp)
  have list := stands.list
  rw [List.map_append, List.map_cons] at list
  have here := readMetric_yields (list.segment.cell e.cell (by simp))
  obtain ⟨⟨l, u⟩, known, rfl⟩ := Option.map_eq_some_iff.mp (holds.queue.final.symm.trans final)
  obtain ⟨xs, split⟩ := List.getLast?_eq_some_iff.mp known
  have queue := holds.queue
  rw [split] at queue
  have linked := storePoint_yields (queue.segment.cell (l, u) (by simp))
    (fun point => { point with next := some n })
  let mem₁ : Memory :=
    { mem with points := mem.points.modify l fun point => { point with next := some n } }
  obtain ⟨metrics, ended, list⟩ := storeLast_yields mem₁ list n
  let e' : Entry :=
    { addr := e.addr
      metric := { e.metric with last := some n, nbPoints := e.metric.nbPoints + 1 }
      nodes := xs ++ [(l, { u with next := some n })] ++ [(n, point)] }
  refine ⟨{ mem₁ with metrics := metrics }, e', .bind here ?_, ?_, rfl, ?_, rfl, rfl⟩
  · simp only [Entry.cell, final]
    exact .bind linked ended
  · have fresh : n ∉ (xs ++ [(l, u)]).map Prod.fst := by
      rw [← split]
      exact new e (by simp)
    refine stands.replace (by simpa [Entry.cell, e'] using list)
      ⟨queue.append cell ends fresh rfl, ?_⟩ rfl ?_ ?_
    · simp [e', holds.counted, split, ofNat_succ]
    · intro other member a inside
      refine Cells.modify_cells_other _ _ ?_
      rintro rfl
      exact stands.others other member (by simp [Entry.addresses, split]) inside
    · intro other member a mine theirs
      have apart := stands.others other member
      have addresses : e'.addresses = e.addresses ++ [n] := by
        simp [e', Entry.addresses, split]
      rw [addresses] at mine
      rcases List.mem_append.mp mine with old | here
      · exact apart old theirs
      · obtain rfl := List.mem_singleton.mp here
        exact new other (mem_middle member) theirs
  · simp [e', Entry.cached, split]

theorem addDatabaseMetricPoint_yields (stands : Stands mem (before ++ e :: after))
    (cell : mem.points.cells n = some point) (ends : point.next = none)
    (new : ∀ other ∈ before ++ e :: after, n ∉ other.addresses) :
    ∃ mem' e', Yields (addDatabaseMetricPoint e.addr n) mem () mem' ∧
      Stands mem' (before ++ e' :: after) ∧ e'.metric.name = e.metric.name ∧
      e'.cached = e.cached ++ [(point.timestamp, point.value)] ∧ SameHistory mem mem' := by
  cases final : e.metric.last with
  | none => exact addFirstPoint_yields stands final cell ends new
  | some last => exact addNextPoint_yields stands final cell ends new

/-! ### Adding a metric -/

theorem Stands.alloc_point (stands : Stands mem entries) (point : MetricPoint) :
    Stands { mem with points := mem.points.alloc point } entries := by
  refine ⟨stands.list, fun e member => ?_, stands.apart, stands.names⟩
  have holds := stands.holds e member
  exact ⟨⟨holds.queue.segment.alloc point, holds.queue.final⟩, holds.counted⟩

/-- A new point is in no list. -/
theorem Stands.unused_point (stands : Stands mem entries) :
    ∀ e ∈ entries, mem.points.next ∉ e.addresses := by
  intro e member inside
  obtain ⟨node, known, same⟩ := List.mem_map.mp inside
  have used := Cells.lt_next ((stands.holds e member).queue.segment.cell node known)
  exact absurd same (Nat.ne_of_lt used)

/-- All of an entry but its place among the metrics. -/
def Entry.content (e : Entry) : CString × UInt32 × Option Addr × Option Addr × List (Addr × MetricPoint) :=
  (e.metric.name, e.metric.nbPoints, e.metric.points, e.metric.last, e.nodes)

theorem map_congr_content {f : Entry → β} {entries' : List Entry}
    (same : entries'.map Entry.content = entries.map Entry.content)
    (factor : ∀ e e' : Entry, e.content = e'.content → f e = f e') : entries'.map f = entries.map f := by
  induction entries generalizing entries' with
  | nil =>
    obtain rfl := List.map_eq_nil_iff.mp same
    rfl
  | cons e rest ih =>
    cases entries' with
    | nil => contradiction
    | cons e' rest' =>
      obtain ⟨head, tail⟩ := List.cons.inj same
      rw [List.map_cons, List.map_cons, factor e' e head, ih tail]

/-- A metric as it is created. -/
def newEntry (n : Addr) (name : CString) : Entry := ⟨n, ⟨name, 0, none, none, none⟩, []⟩

/-- A metric without points at the end of the list. -/
theorem Stands.add (stands : Stands mem entries) (mem' : Memory) (entries' : List Entry)
    (points : mem'.points = mem.points) (unnamed : ∀ e ∈ entries, e.metric.name ≠ name)
    (same : entries'.map Entry.content = entries.map Entry.content)
    (list : Queue mem'.metrics Metric.next mem'.db.first mem'.db.last
      ((entries' ++ [newEntry n name]).map Entry.cell)) :
    Stands mem' (entries' ++ [newEntry n name]) ∧
      cachedUnder (entries' ++ [newEntry n name]) = cachedUnder entries ∧
      metricNames (entries' ++ [newEntry n name]) = metricNames entries ++ [name] := by
  have names : entries'.map (fun e => e.metric.name) = entries.map fun e => e.metric.name :=
    map_congr_content same fun _ _ content => congrArg (fun c => c.1) content
  have addresses : entries'.map Entry.addresses = entries.map Entry.addresses :=
    map_congr_content same fun _ _ content => congrArg (fun c => c.2.2.2.2.map Prod.fst) content
  have queues : entries'.map (fun e => (e.metric.name, e.cached)) =
      entries.map fun e => (e.metric.name, e.cached) :=
    map_congr_content same fun _ _ content =>
      congrArg (fun c => (c.1, c.2.2.2.2.map fun node => (node.2.timestamp, node.2.value))) content
  refine ⟨⟨list, ?_, ?_, ?_⟩, ?_, ?_⟩
  · intro e member
    rw [points]
    rcases List.mem_append.mp member with old | new
    · obtain ⟨e₀, member₀, content⟩ := List.mem_map.mp (same ▸ List.mem_map_of_mem old)
      simp only [Entry.content, Prod.mk.injEq] at content
      obtain ⟨_, count, first, last, nodes⟩ := content
      have holds := stands.holds e₀ member₀
      refine ⟨?_, ?_⟩
      · rw [← first, ← last, ← nodes]
        exact holds.queue
      · rw [← count, ← nodes]
        exact holds.counted
    · obtain rfl := List.mem_singleton.mp new
      exact ⟨.empty, rfl⟩
  · have apart := stands.apart
    rw [← List.pairwise_map (f := Entry.addresses), ← addresses, List.pairwise_map] at apart
    refine List.pairwise_append.mpr ⟨apart, List.pairwise_singleton _ _, ?_⟩
    intro e _ new member a _ inside
    obtain rfl := List.mem_singleton.mp member
    contradiction
  · rw [List.map_append, names]
    refine List.nodup_append.mpr ⟨stands.names, List.nodup_singleton _, ?_⟩
    intro old member new single
    obtain rfl := List.mem_singleton.mp single
    obtain ⟨e, known, rfl⟩ := List.mem_map.mp member
    exact unnamed e known
  · funext other
    have waiting (list : List Entry) : cachedUnder list other =
        ((list.map fun e => (e.metric.name, e.cached)).filter fun e => e.1 = other).flatMap Prod.snd := by
      simp [cachedUnder, List.filter_map, List.flatMap_map, Function.comp_def]
    rw [cachedUnder_append, waiting entries', queues, ← waiting]
    simp [cachedUnder, List.filter_cons, Entry.cached, newEntry]
  · rw [metricNames, List.map_append, names]
    rfl

theorem createNewMetric_yields (mem : Memory) (name : CString) :
    Yields (createNewMetric name) mem mem.metrics.next
      { mem with metrics := mem.metrics.alloc (newEntry mem.metrics.next name).metric } :=
  .bind (.get mem) (.bind (.set _ _) (.pure _ _))

theorem addDatabaseMetric_yields (stands : Stands mem entries)
    (unnamed : ∀ e ∈ entries, e.metric.name ≠ name) :
    ∃ mem' entries', Yields (addDatabaseMetric mem.metrics.next)
        { mem with metrics := mem.metrics.alloc (newEntry mem.metrics.next name).metric } () mem' ∧
      Stands mem' (entries' ++ [newEntry mem.metrics.next name]) ∧
      cachedUnder (entries' ++ [newEntry mem.metrics.next name]) = cachedUnder entries ∧
      metricNames (entries' ++ [newEntry mem.metrics.next name]) = metricNames entries ++ [name] ∧
      SameHistory mem mem' := by
  let n := mem.metrics.next
  let mem₁ : Memory := { mem with metrics := mem.metrics.alloc (newEntry n name).metric }
  have cell : mem₁.metrics.cells n = some (newEntry n name).metric := Cells.alloc_cells _ _
  have final := stands.list.final
  cases split : entries.getLast? with
  | none =>
    obtain rfl := List.getLast?_eq_none_iff.mp split
    have db : mem.db.last = none := final
    refine ⟨{ mem₁ with db := ⟨some n, some n⟩ }, [], ?_, ?_⟩
    · refine .bind (.get mem₁) ?_
      simp only [mem₁, db]
      exact .bind (.update _ _) (.update _ _)
    · have added := stands.add { mem₁ with db := ⟨some n, some n⟩ } [] rfl unnamed rfl
        (.start cell rfl)
      exact ⟨added.1, added.2.1, added.2.2, rfl, rfl⟩
  | some l =>
    obtain ⟨xs, rfl⟩ := List.getLast?_eq_some_iff.mp split
    have db : mem.db.last = some l.addr := by
      rw [final]
      simp [Entry.cell]
    let link (metric : Metric) : Metric := { metric with next := some n }
    let l' : Entry := { l with metric := link l.metric }
    let mem₂ : Memory := { mem₁ with metrics := mem₁.metrics.modify l.addr link }
    have list : Queue mem₁.metrics Metric.next mem.db.first mem.db.last
        (xs.map Entry.cell ++ [l.cell]) := by
      have old := stands.list
      rw [List.map_append, List.map_singleton] at old
      exact ⟨old.segment.alloc _, old.final⟩
    have fresh : n ∉ (xs.map Entry.cell ++ [l.cell]).map Prod.fst := by
      intro inside
      obtain ⟨node, known, same⟩ := List.mem_map.mp inside
      have old := stands.list.segment.cell node (by simpa using known)
      exact absurd same (Nat.ne_of_lt (Cells.lt_next old))
    have linked := storeMetric_yields (list.segment.cell l.cell (by simp)) link
    have listed := list.append cell rfl fresh (f := link) rfl
    refine ⟨{ mem₂ with db := ⟨mem.db.first, some n⟩ }, xs ++ [l'], ?_, ?_⟩
    · refine .bind (.get mem₁) ?_
      simp only [mem₁, db]
      exact .bind linked (.update _ _)
    · have added := stands.add { mem₂ with db := ⟨mem.db.first, some n⟩ } (xs ++ [l']) rfl
        unnamed (by simp [l', link, Entry.content])
        (by simpa [Entry.cell, l', newEntry] using listed)
      exact ⟨added.1, added.2.1, added.2.2, rfl, rfl⟩

/-! ### Receiving -/

theorem relatedMetric_yields (stands : Stands mem entries) (name : CString) :
    ∃ mem' before e after, Yields (relatedMetric name) mem e.addr mem' ∧
      Stands mem' (before ++ e :: after) ∧ e.metric.name = name ∧
      cachedUnder (before ++ e :: after) = cachedUnder entries ∧
      metricNames (before ++ e :: after) = withName (metricNames entries) name ∧
      SameHistory mem mem' := by
  have got := getMetric_yields stands name
  cases found : entries.find? fun e => e.metric.name = name with
  | some e =>
    rw [found] at got
    obtain ⟨before, after, split⟩ := List.append_of_mem (List.mem_of_find?_eq_some found)
    have named : e.metric.name = name := by simpa using List.find?_some found
    have known : name ∈ metricNames entries :=
      named ▸ List.mem_map_of_mem (List.mem_of_find?_eq_some found)
    refine ⟨mem, before, e, after, .bind got (.pure _ _), split ▸ stands, named, by rw [split], ?_,
      rfl, rfl⟩
    rw [withName, if_pos known, split]
  | none =>
    rw [found] at got
    have unnamed : ∀ e ∈ entries, e.metric.name ≠ name := by simpa using found
    have unknown : name ∉ metricNames entries := by
      rintro known
      obtain ⟨e, member, named⟩ := List.mem_map.mp known
      exact unnamed e member named
    obtain ⟨mem', entries', added, stands', same, names, handed⟩ :=
      addDatabaseMetric_yields stands unnamed
    refine ⟨mem', entries', newEntry mem.metrics.next name, [],
      .bind got (.bind (createNewMetric_yields mem name) (.bind added (.pure _ _))), stands', rfl,
      same, ?_, handed⟩
    rw [withName, if_neg unknown, names]

/-- A value received waits behind those of its name. -/
theorem addPoint_yields (stands : Stands mem entries) (name : CString) (timestamp : UInt32)
    (value : UInt64) : ∃ mem' entries', Yields (addPoint name timestamp value) mem () mem' ∧
      Stands mem' entries' ∧ cachedUnder entries' = Function.update (cachedUnder entries) name
        (cachedUnder entries name ++ [(timestamp, value)]) ∧
      metricNames entries' = withName (metricNames entries) name ∧
      mem'.added = mem.added ++ [(name, timestamp, value)] ∧ mem'.handed = mem.handed := by
  obtain ⟨mem₁, before, e, after, related, stands₁, rfl, same, names, history₁⟩ :=
    relatedMetric_yields stands name
  let point : MetricPoint := ⟨timestamp, value, none⟩
  have created : Yields (createNewMetricPoint timestamp value) mem₁ mem₁.points.next
      { mem₁ with points := mem₁.points.alloc point } :=
    .bind (.get mem₁) (.bind (.set _ _) (.pure _ _))
  obtain ⟨mem₂, e', added, stands₂, named, cached, history₂⟩ := addDatabaseMetricPoint_yields
    (stands₁.alloc_point point) (Cells.alloc_cells _ _) rfl stands₁.unused_point
  refine ⟨{ mem₂ with added := mem₂.added ++ [(e.metric.name, timestamp, value)] },
    before ++ e' :: after, .bind related (.bind created (.bind added (.update _ _))),
    ⟨stands₂.list, stands₂.holds, stands₂.apart, stands₂.names⟩, ?_, ?_, ?_,
    history₂.2.trans history₁.2⟩
  · rw [cachedUnder_replaced stands₁.names named, ← same, cachedUnder_self stands₁.names, cached]
  · rw [← names]
    simp only [metricNames, List.map_append, List.map_cons, named]
  · rw [history₂.1]
    exact congrArg (· ++ _) history₁.1

end Carbond.Cache
