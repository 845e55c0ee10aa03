import Carbond.Cache.DatabaseProofs
import Carbond.Cache.Feeders

/-! As long as no link is overwritten and no name is being added twice at the same time, the
feeders keep one list with a metric for each name. -/
namespace Carbond.Cache.Feeders
open Heap Text Transition

/-- A metric as it stays: its address and its name. -/
def entry (node : Addr × Metric) : Addr × CString := (node.1, node.2.name)

/-- The metrics from `db->first` on. -/
def Lists (shared : Shared) (entries : List (Addr × CString)) : Prop :=
  ∃ nodes, Segment shared.metrics Metric.next shared.db.first nodes none ∧
    nodes.map entry = entries

namespace Lists
variable {shared : Shared}

theorem addresses {nodes : List (Addr × Metric)} (same : nodes.map entry = entries) :
    nodes.map Prod.fst = entries.map Prod.fst := by
  rw [← same, List.map_map]
  rfl

/-- What a metric of the list leads to. -/
theorem next (lists : Lists shared (before ++ (a, name) :: after))
    (cell : shared.metrics.cells a = some m) :
    m.name = name ∧ m.next = after.head?.map Prod.fst := by
  obtain ⟨nodes, segment, same⟩ := lists
  obtain ⟨front, back, rfl, _, cut⟩ := List.map_eq_append_iff.mp same
  obtain ⟨node, rest, rfl, here, behind⟩ := List.map_eq_cons_iff.mp cut
  obtain ⟨_, _, _, known, tail⟩ := segment.split
  obtain ⟨rfl, rfl⟩ := Prod.mk.inj here
  obtain rfl := Option.some.inj (cell.symm.trans known)
  refine ⟨rfl, ?_⟩
  cases rest with
  | nil =>
    obtain rfl : [] = after := behind
    exact tail
  | cons following rest =>
    rw [← behind]
    exact tail.1

theorem unlinked (lists : Lists shared entries) (none : shared.db.first = none) : entries = [] := by
  obtain ⟨nodes, segment, rfl⟩ := lists
  cases nodes with
  | nil => rfl
  | cons node rest =>
    rw [none] at segment
    exact nomatch segment.1

theorem alloc (lists : Lists shared entries) (m : Metric) :
    Lists { shared with metrics := shared.metrics.alloc m } entries := by
  obtain ⟨nodes, segment, same⟩ := lists
  exact ⟨nodes, segment.alloc m, same⟩

/-- The first metric. -/
theorem start (cell : shared.metrics.cells a = some m) (ends : m.next = none) :
    Lists { shared with db := { shared.db with first := some a } } [(a, m.name)] :=
  ⟨[(a, m)], ⟨rfl, cell, ends⟩, rfl⟩

/-- A metric linked to the last one. -/
theorem append (lists : Lists shared entries) (member : last ∈ entries.map Prod.fst)
    (free : ∀ m, shared.metrics.cells last = some m → m.next = none)
    (cell : shared.metrics.cells a = some m) (ends : m.next = none)
    (apart : a ∉ entries.map Prod.fst) :
    Lists { shared with
      metrics := shared.metrics.modify last fun m => { m with next := some a } }
      (entries ++ [(a, m.name)]) := by
  obtain ⟨nodes, segment, same⟩ := lists
  rw [← addresses same] at member apart
  obtain ⟨⟨l, u⟩, inside, rfl⟩ := List.mem_map.mp member
  obtain ⟨before, after, rfl⟩ := List.append_of_mem inside
  have known := segment.cell _ inside
  obtain ⟨_, _, _, _, tail⟩ := segment.split
  rw [free u known] at tail
  obtain rfl : after = [] := by
    cases after with
    | nil => rfl
    | cons node rest => exact nomatch tail.1
  have queue : Queue shared.metrics Metric.next shared.db.first (some l) (before ++ [(l, u)]) :=
    ⟨segment, by simp⟩
  have grown := queue.append (f := fun m : Metric => { m with next := some a }) cell ends apart rfl
  refine ⟨_, grown.segment, ?_⟩
  rw [← same]
  simp [entry]

end Lists
/-- A metric that its feeder has created and not linked. -/
structure New (metrics : Cells Metric) (entries : List (Addr × CString)) (mName : CString)
    (a : Addr) : Prop where
  cell : ∃ m, metrics.cells a = some m ∧ m.name = mName ∧ m.next = none
  apart : a ∉ entries.map Prod.fst
  missing : mName ∉ entries.map Prod.snd

/-- A search is at this metric, and none before it has the name. -/
def Reached (entries : List (Addr × CString)) (mName : CString) (curM : Addr) : Prop :=
  ∃ before name after, entries = before ++ (curM, name) :: after ∧ mName ∉ before.map Prod.snd

/-- What a feeder knows about the list. -/
def Fits (metrics : Cells Metric) (entries : List (Addr × CString)) : Pc → Prop
  | .idle => True
  | .readFirst _ => True
  | .compare mName none => mName ∉ entries.map Prod.snd
  | .compare mName (some curM) => Reached entries mName curM
  | .advance mName curM => Reached entries mName curM ∧ (curM, mName) ∉ entries
  | .create mName => mName ∉ entries.map Prod.snd
  | .testLast mName a => New metrics entries mName a
  | .storeFirst mName a => New metrics entries mName a
  | .readLast mName a => New metrics entries mName a
  | .storeNext mName a last => New metrics entries mName a ∧ last ∈ entries.map Prod.fst
  | .storeLast a => a ∈ entries.map Prod.fst

/-- The metric that a feeder has created and not linked. -/
def Pc.new : Pc → Option Addr
  | .testLast _ a => some a
  | .storeFirst _ a => some a
  | .readLast _ a => some a
  | .storeNext _ a _ => some a
  | _ => none

/-- The list as it is, and what each feeder knows about it. -/
structure Consistent (state : State) (entries : List (Addr × CString)) : Prop where
  lists : Lists state.shared entries
  names : (entries.map Prod.snd).Nodup
  last : ∀ a, state.shared.db.last = some a → a ∈ entries.map Prod.fst
  completed : ∀ a ∈ state.shared.completed, a ∈ entries.map Prod.fst
  fits : ∀ feeder, Fits state.shared.metrics entries (state.pcs feeder)
  apart : ∀ feeder other, feeder ≠ other → ∀ a, (state.pcs feeder).new = some a →
    (state.pcs other).new ≠ some a

theorem Consistent.sound (consistent : Consistent state entries) : Sound state.shared := by
  obtain ⟨nodes, segment, same⟩ := consistent.lists
  have known {a : Addr} {m : Metric} (cell : state.shared.metrics.cells a = some m)
      (linked : Linked state.shared.metrics Metric.next state.shared.db.first a) : (a, m) ∈ nodes := by
    obtain ⟨node, member, rfl⟩ := List.mem_map.mp (segment.linked_iff.mp linked)
    obtain rfl := Option.some.inj (cell.symm.trans (segment.cell node member))
    exact member
  constructor
  · intro a b m m' first second cell cell' names
    have one : (a, m.name) ∈ entries := same ▸ List.mem_map_of_mem (known cell first)
    have two : (b, m'.name) ∈ entries := same ▸ List.mem_map_of_mem (known cell' second)
    exact congrArg Prod.fst (List.inj_on_of_nodup_map consistent.names one two names)
  · intro a member
    rw [segment.linked_iff, Lists.addresses same]
    exact consistent.completed a member

theorem consistent_start : Consistent start [] where
  lists := ⟨[], rfl, rfl⟩
  names := List.nodup_nil
  last := nofun
  completed := nofun
  fits _ := trivial
  apart _ _ _ _ new := nomatch new

/-! ### One step -/

theorem New.congr {metrics metrics' : Cells Metric} (new : New metrics entries mName a)
    (same : ∀ b, b ∉ entries.map Prod.fst → ∀ m, metrics.cells b = some m →
      metrics'.cells b = some m) : New metrics' entries mName a := by
  obtain ⟨m, cell, rest⟩ := new.cell
  exact ⟨⟨m, same a new.apart m cell, rest⟩, new.apart, new.missing⟩

/-- What a feeder knows is about the metrics of the list and one of its own. -/
theorem Fits.congr {metrics metrics' : Cells Metric} (fits : Fits metrics entries pc)
    (same : ∀ b, b ∉ entries.map Prod.fst → ∀ m, metrics.cells b = some m →
      metrics'.cells b = some m) : Fits metrics' entries pc := by
  cases pc with
  | testLast mName a | storeFirst mName a | readLast mName a => exact New.congr fits same
  | storeNext mName a last => exact ⟨fits.1.congr same, fits.2⟩
  | compare mName curM => cases curM <;> exact fits
  | idle | readFirst | advance | create | storeLast => exact fits

theorem Fits.new {metrics : Cells Metric} (fits : Fits metrics entries pc)
    (new : pc.new = some a) : ∃ mName, New metrics entries mName a := by
  cases pc with
  | testLast mName b | storeFirst mName b | readLast mName b =>
    cases new
    exact ⟨mName, fits⟩
  | storeNext mName b last =>
    cases new
    exact ⟨mName, fits.1⟩
  | _ => exact nomatch new

theorem Reached.append (reached : Reached entries mName curM) (more : List (Addr × CString)) :
    Reached (entries ++ more) mName curM := by
  obtain ⟨before, name, after, rfl, others⟩ := reached
  exact ⟨before, name, after ++ more, by simp, others⟩

theorem Reached.mem (reached : Reached entries mName curM) : curM ∈ entries.map Prod.fst := by
  obtain ⟨before, name, after, rfl, _⟩ := reached
  simp

theorem not_mem_append {names : List CString} (missing : mName ∉ names) (other : mName ≠ name) :
    mName ∉ names ++ [name] := by
  simp [missing, other]

theorem New.append {metrics : Cells Metric} (new : New metrics entries mName b) (other : b ≠ a)
    (rival : mName ≠ name) : New metrics (entries ++ [(a, name)]) mName b := by
  refine ⟨new.cell, ?_, ?_⟩ <;> rw [List.map_append]
  · simp [new.apart, other]
  · exact not_mem_append new.missing rival

/-- Another feeder has linked a metric of another name. -/
theorem Fits.append {metrics : Cells Metric} (fits : Fits metrics entries pc)
    (apart : a ∉ entries.map Prod.fst) (fresh : pc.new ≠ some a)
    (rival : pc.unlinked ≠ some name) : Fits metrics (entries ++ [(a, name)]) pc := by
  have other {mName : CString} (unlinked : pc.unlinked = some mName) : mName ≠ name :=
    fun same => rival (same ▸ unlinked)
  have another {b : Addr} (new : pc.new = some b) : b ≠ a := fun same => fresh (same ▸ new)
  cases pc with
  | idle | readFirst => trivial
  | testLast mName b | storeFirst mName b | readLast mName b =>
    exact New.append fits (another rfl) (other rfl)
  | storeNext mName b last =>
    exact ⟨fits.1.append (another rfl) (other rfl), by simp [fits.2]⟩
  | create mName =>
    rw [Fits, List.map_append]
    exact not_mem_append fits (other rfl)
  | storeLast b =>
    rw [Fits, List.map_append]
    exact List.mem_append_left _ fits
  | advance mName curM =>
    refine ⟨fits.1.append _, ?_⟩
    have here := fits.1.mem
    rw [List.mem_append, List.mem_singleton]
    rintro (inside | same)
    · exact fits.2 inside
    · obtain ⟨rfl, _⟩ := Prod.mk.inj same
      exact apart here
  | compare mName curM =>
    cases curM with
    | none =>
      rw [Fits, List.map_append]
      exact not_mem_append fits (other rfl)
    | some curM => exact Reached.append fits _

section
variable {pcs : Feeder → Pc} {feeder : Feeder}

theorem fits_update {metrics : Cells Metric} (mine : Fits metrics entries pc)
    (others : ∀ other, other ≠ feeder → Fits metrics entries (pcs other)) (other : Feeder) :
    Fits metrics entries (Function.update pcs feeder pc other) := by
  by_cases same : other = feeder
  · rw [same, Function.update_self]
    exact mine
  · rw [Function.update_of_ne same]
    exact others other same

theorem apart_update
    (apart : ∀ feeder other, feeder ≠ other → ∀ a, (pcs feeder).new = some a →
      (pcs other).new ≠ some a)
    (mine : ∀ a, pc.new = some a → ∀ other, other ≠ feeder → (pcs other).new ≠ some a) :
    ∀ one other, one ≠ other → ∀ a, (Function.update pcs feeder pc one).new = some a →
      (Function.update pcs feeder pc other).new ≠ some a := by
  intro one other different a new
  by_cases same : one = feeder
  · subst same
    rw [Function.update_self] at new
    rw [Function.update_of_ne (Ne.symm different)]
    exact mine a new other (Ne.symm different)
  · rw [Function.update_of_ne same] at new
    by_cases same' : other = feeder
    · subst same'
      rw [Function.update_self]
      exact fun taken => mine a taken one same new
    · rw [Function.update_of_ne same']
      exact apart one other different a new

end

namespace Consistent
variable {state : State} {entries : List (Addr × CString)} {feeder : Feeder}

/-- A feeder moves on and changes nothing that is shared. -/
theorem move (consistent : Consistent state entries) (fits : Fits state.shared.metrics entries pc)
    (kept : ∀ a, pc.new = some a → (state.pcs feeder).new = some a) :
    Consistent ⟨state.shared, Function.update state.pcs feeder pc⟩ entries where
  lists := consistent.lists
  names := consistent.names
  last := consistent.last
  completed := consistent.completed
  fits := fits_update fits fun other _ => consistent.fits other
  apart := apart_update consistent.apart fun a new other different =>
    consistent.apart feeder other (Ne.symm different) a (kept a new)

theorem name_eq (consistent : Consistent state entries) (member : (a, name) ∈ entries)
    (cell : state.shared.metrics.cells a = some m) : m.name = name := by
  obtain ⟨before, after, rfl⟩ := List.append_of_mem member
  exact (consistent.lists.next cell).1

/-- The comparison fails. -/
theorem different (consistent : Consistent state entries) (reached : Reached entries mName curM)
    (cell : state.shared.metrics.cells curM = some m) (different : sameName mName m.name = false) :
    Fits state.shared.metrics entries (.advance mName curM) := by
  refine ⟨reached, fun member => ?_⟩
  rw [sameName_iff.mpr (consistent.name_eq member cell).symm] at different
  contradiction

theorem advance (consistent : Consistent state entries) (reached : Reached entries mName curM)
    (other : (curM, mName) ∉ entries) (cell : state.shared.metrics.cells curM = some m) :
    Fits state.shared.metrics entries (.compare mName m.next) := by
  obtain ⟨before, name, after, rfl, others⟩ := reached
  have following := (consistent.lists.next cell).2
  have passed : mName ∉ (before ++ [(curM, name)]).map Prod.snd := by
    rw [List.map_append]
    refine not_mem_append others ?_
    rintro rfl
    exact other (by simp)
  cases after with
  | nil =>
    rw [following]
    exact passed
  | cons node rest =>
    rw [following]
    exact ⟨before ++ [(curM, name)], node.2, rest, by simp, passed⟩

theorem readFirst (consistent : Consistent state entries) (mName : CString) :
    Fits state.shared.metrics entries (.compare mName state.shared.db.first) := by
  obtain ⟨nodes, segment, same⟩ := consistent.lists
  cases nodes with
  | nil =>
    obtain rfl : [] = entries := same
    rw [show state.shared.db.first = none from segment]
    exact List.not_mem_nil
  | cons node rest =>
    rw [segment.1]
    exact ⟨[], node.2.name, rest.map entry, same.symm, List.not_mem_nil⟩

/-- A new metric, which nobody else knows yet. -/
theorem create (consistent : Consistent state entries) (missing : mName ∉ entries.map Prod.snd) :
    Consistent ⟨{ state.shared with
        metrics := state.shared.metrics.alloc ⟨mName, 0, none, none, none⟩ },
      Function.update state.pcs feeder (.testLast mName state.shared.metrics.next)⟩ entries := by
  have kept (b : Addr) (_ : b ∉ entries.map Prod.fst) (m : Metric)
      (cell : state.shared.metrics.cells b = some m) :
      (state.shared.metrics.alloc ⟨mName, 0, none, none, none⟩).cells b = some m :=
    Cells.alloc_cells_old _ cell
  have unused (a : Addr) (member : a ∈ entries.map Prod.fst) : a ≠ state.shared.metrics.next := by
    obtain ⟨nodes, segment, same⟩ := consistent.lists
    rw [← Lists.addresses same] at member
    obtain ⟨node, inside, rfl⟩ := List.mem_map.mp member
    exact Nat.ne_of_lt (Cells.lt_next (segment.cell node inside))
  refine ⟨consistent.lists.alloc _, consistent.names, consistent.last, consistent.completed,
    fits_update ⟨⟨_, Cells.alloc_cells _ _, rfl, rfl⟩, fun member => unused _ member rfl, missing⟩
      fun other _ => (consistent.fits other).congr kept,
    apart_update consistent.apart ?_⟩
  intro a new other _ taken
  obtain rfl : state.shared.metrics.next = a := Option.some.inj new
  obtain ⟨_, ⟨m, cell, _⟩, _⟩ := (consistent.fits other).new taken
  exact (Nat.lt_irrefl _ (Cells.lt_next cell)).elim

/-- A metric is linked. -/
theorem linked (consistent : Consistent state entries) (here : (state.pcs feeder).new = some a)
    (new : New state.shared.metrics entries mName a)
    (rivals : ∀ other, other ≠ feeder → (state.pcs other).unlinked ≠ some mName)
    (lists : Lists shared (entries ++ [(a, mName)])) (last : shared.db.last = state.shared.db.last)
    (completed : shared.completed = state.shared.completed)
    (same : ∀ b, b ∉ entries.map Prod.fst → ∀ m, state.shared.metrics.cells b = some m →
      shared.metrics.cells b = some m) :
    Consistent ⟨shared, Function.update state.pcs feeder (.storeLast a)⟩
      (entries ++ [(a, mName)]) := by
  have grown {b : Addr} (member : b ∈ entries.map Prod.fst) :
      b ∈ (entries ++ [(a, mName)]).map Prod.fst := by
    rw [List.map_append]
    exact List.mem_append_left _ member
  refine ⟨lists, ?_, ?_, ?_, fits_update ?_ fun other different => ?_,
    apart_update consistent.apart fun _ new => nomatch new⟩
  · rw [List.map_append]
    simpa using consistent.names.concat new.missing
  · rw [last]
    exact fun b stored => grown (consistent.last b stored)
  · rw [completed]
    exact fun b member => grown (consistent.completed b member)
  · simp [Fits]
  · exact ((consistent.fits other).congr same).append new.apart
      (consistent.apart feeder other (Ne.symm different) a here) (rivals other different)

theorem storeFirst (consistent : Consistent state entries)
    (here : state.pcs feeder = .storeFirst mName a) (none : state.shared.db.first = none)
    (rivals : ∀ other, other ≠ feeder → (state.pcs other).unlinked ≠ some mName) :
    Consistent ⟨{ state.shared with db := { state.shared.db with first := some a } },
      Function.update state.pcs feeder (.storeLast a)⟩ (entries ++ [(a, mName)]) := by
  have new : New state.shared.metrics entries mName a := by
    have fits := consistent.fits feeder
    rwa [here] at fits
  obtain ⟨m, cell, rfl, ends⟩ := new.cell
  refine consistent.linked (by rw [here]; rfl) new rivals ?_ rfl rfl fun _ _ _ cell => cell
  rw [consistent.lists.unlinked none]
  exact Lists.start cell ends

theorem storeNext {tail : Addr} (consistent : Consistent state entries)
    (here : state.pcs feeder = .storeNext mName a tail)
    (free : ∀ m, state.shared.metrics.cells tail = some m → m.next = none)
    (rivals : ∀ other, other ≠ feeder → (state.pcs other).unlinked ≠ some mName) :
    Consistent ⟨{ state.shared with
        metrics := state.shared.metrics.modify tail fun m => { m with next := some a } },
      Function.update state.pcs feeder (.storeLast a)⟩ (entries ++ [(a, mName)]) := by
  obtain ⟨new, member⟩ : New state.shared.metrics entries mName a ∧ tail ∈ entries.map Prod.fst := by
    have fits := consistent.fits feeder
    rwa [here] at fits
  obtain ⟨m, cell, rfl, ends⟩ := new.cell
  refine consistent.linked (by rw [here]; rfl) new rivals
    (consistent.lists.append member free cell ends new.apart) rfl rfl ?_
  intro b apart m cell
  rwa [Cells.modify_cells_other]
  rintro rfl
  exact apart member

theorem storeLast (consistent : Consistent state entries)
    (here : state.pcs feeder = .storeLast a) :
    Consistent ⟨{ state.shared with
        db := { state.shared.db with last := some a }
        completed := state.shared.completed ++ [a] },
      Function.update state.pcs feeder .idle⟩ entries := by
  have member : a ∈ entries.map Prod.fst := by
    have fits := consistent.fits feeder
    rwa [here] at fits
  refine ⟨consistent.lists, consistent.names, ?_, ?_,
    fits_update trivial fun other _ => consistent.fits other,
    apart_update consistent.apart fun _ new => nomatch new⟩
  · intro b stored
    rwa [← Option.some.inj stored]
  · intro b inside
    rcases List.mem_append.mp inside with old | new
    · exact consistent.completed b old
    · rwa [List.mem_singleton.mp new]

theorem step (consistent : Consistent state entries) (moved : Step state next)
    (guarded : Guarded state next) : ∃ entries, Consistent next entries := by
  obtain ⟨feeder, moved⟩ := moved
  have fits := consistent.fits feeder
  have guard := guarded feeder
  generalize here : state.pcs feeder = pc at moved fits guard
  simp only [Function.update_self] at guard
  cases moved with
  | begin mName => exact ⟨entries, consistent.move trivial nofun⟩
  | readFirst => exact ⟨entries, consistent.move (consistent.readFirst _) nofun⟩
  | found => exact ⟨entries, consistent.move trivial nofun⟩
  | different cell different =>
    exact ⟨entries, consistent.move (consistent.different fits cell different) nofun⟩
  | advance cell =>
    exact ⟨entries, consistent.move (consistent.advance fits.1 fits.2 cell) nofun⟩
  | missing => exact ⟨entries, consistent.move fits nofun⟩
  | create => exact ⟨entries, consistent.create fits⟩
  | noMetric => exact ⟨entries, consistent.move fits fun a new => by rw [here]; exact new⟩
  | someMetric => exact ⟨entries, consistent.move fits fun a new => by rw [here]; exact new⟩
  | readLast stored =>
    exact ⟨entries, consistent.move ⟨fits, consistent.last _ stored⟩
      fun a new => by rw [here]; exact new⟩
  | storeFirst =>
    obtain ⟨_, ⟨rfl, none⟩, rivals⟩ := guard rfl Pc.noConfusion
    exact ⟨_, consistent.storeFirst here none rivals⟩
  | storeNext =>
    obtain ⟨_, ⟨rfl, free⟩, rivals⟩ := guard rfl Pc.noConfusion
    exact ⟨_, consistent.storeNext here free rivals⟩
  | storeLast => exact ⟨entries, consistent.storeLast here⟩

end Consistent

end Carbond.Cache.Feeders
