import Carbond.Cache.Handover

/-! A metric's list of points is a part the writer has passed on and a rest it has not come to. As
long as every point is linked to that rest, no point is lost. -/
namespace Carbond.Cache.Handover
open Heap Transition

/-- A point to link the next one to: the last of those left, or one that is passed on. -/
def Behind (handed rest : List Addr) (a : Addr) : Prop := a ∈ handed ∨ rest.getLast? = some a

/-- A point that is created and not linked. -/
structure New (points : Cells MetricPoint) (handed addresses : List Addr) (a : Addr) : Prop where
  cell : ∃ point, points.cells a = some point ∧ point.next = none
  apart : a ∉ addresses
  unknown : a ∉ handed

/-- What the receiver knows about the list. -/
def ReceiverFits (points : Cells MetricPoint) (handed front rest : List Addr) : ReceiverPc → Prop
  | .idle => True
  | .testLast newPoint => New points handed (front ++ rest) newPoint
  | .storePoints newPoint => New points handed (front ++ rest) newPoint
  | .readLast newPoint => New points handed (front ++ rest) newPoint
  | .storeNext newPoint last => New points handed (front ++ rest) newPoint ∧ Behind handed rest last
  | .storeLast newPoint => Behind handed rest newPoint
  | .increment newPoint => newPoint ∈ handed ∨ newPoint ∈ rest

/-- What the writer knows about the list. -/
def WriterFits (points : Cells MetricPoint) (front rest : List Addr) : WriterPc → Prop
  | .idle => front = []
  | .lock mtP => front = [] ∧ Chain points MetricPoint.next mtP rest
  | .loop mtP => Chain points MetricPoint.next mtP rest
  | .write mtP mtPNext => ∃ left, rest = mtP :: left ∧ Chain points MetricPoint.next mtPNext left
  | .free _ mtPNext => Chain points MetricPoint.next mtPNext rest
  | .resetNbPoints => rest = []
  | .resetPoints => rest = []
  | .resetLast => front = []
  | .unlock => front = []

/-- The points passed on, and those left. -/
structure Consistent (state : State) (front rest : List Addr) : Prop where
  chain : Chain state.points MetricPoint.next state.metric.points (front ++ rest)
  passed : ∀ a ∈ front, a ∈ state.handed
  left : ∀ a ∈ rest, a ∉ state.handed
  once : state.handed.Nodup
  completed : ∀ a ∈ state.completed, a ∈ state.handed ∨ a ∈ rest
  freed : ∀ a ∈ state.handed, a ∈ state.freed ∨ state.writer.Past a
  known : ∀ a ∈ state.handed, ∃ point, state.points.cells a = some point
  last : (∀ newPoint, state.receiver ≠ .storeLast newPoint) →
    ∀ a, state.metric.last = some a → Behind state.handed rest a
  receiver : ReceiverFits state.points state.handed front rest state.receiver
  writer : WriterFits state.points front rest state.writer
  stray : state.strayStore = false

theorem Behind.mem (behind : Behind handed rest a) : a ∈ handed ∨ a ∈ rest :=
  behind.imp_right List.mem_of_getLast?

namespace Consistent
variable {state next : State} {front rest : List Addr}

theorem start (name : Text.CString) : Consistent (start name) [] [] where
  chain := .empty
  passed := nofun
  left := nofun
  once := List.nodup_nil
  completed := nofun
  freed := nofun
  known := nofun
  last _ _ := nofun
  receiver := trivial
  writer := rfl
  stray := rfl

theorem kept (consistent : Consistent state front rest) : Kept state where
  points a member := by
    rcases consistent.completed a member with handed | left
    · exact .inr (List.count_eq_one_of_mem consistent.once handed)
    · exact .inl ⟨consistent.chain.linked (List.mem_append_right _ left), consistent.left a left⟩
  freed := consistent.stray

end Consistent

/-! ### The receiver -/

theorem WriterFits.alloc {points : Cells MetricPoint} (fits : WriterFits points front rest pc)
    (point : MetricPoint) : WriterFits (points.alloc point) front rest pc := by
  cases pc with
  | lock mtP => exact ⟨fits.1, fits.2.alloc point⟩
  | loop mtP | free mtP mtPNext => exact Chain.alloc fits point
  | write mtP mtPNext =>
    obtain ⟨left, same, chain⟩ := fits
    exact ⟨left, same, chain.alloc point⟩
  | idle | resetNbPoints | resetPoints | resetLast | unlock => exact fits

/-- A point is linked behind the last one whose link the writer has not read. -/
theorem WriterFits.append {points : Cells MetricPoint} (fits : WriterFits points front (xs ++ [l]) pc)
    (past : ¬ pc.Past l) (new : New points handed (front ++ (xs ++ [l])) n) :
    WriterFits (points.modify l fun point => { point with next := some n }) front
      (xs ++ [l] ++ [n]) pc := by
  obtain ⟨point, cell, ends⟩ := new.cell
  have apart : n ∉ xs ++ [l] := fun member => new.apart (List.mem_append_right _ member)
  cases pc with
  | lock mtP => exact ⟨fits.1, fits.2.append cell ends apart fun _ => rfl⟩
  | loop mtP | free mtP mtPNext => exact Chain.append fits cell ends apart fun _ => rfl
  | write mtP mtPNext =>
    obtain ⟨left, same, chain⟩ := fits
    cases xs with
    | nil => exact (past (List.cons.inj same).1.symm).elim
    | cons first xs =>
      obtain ⟨rfl, rfl⟩ := List.cons.inj same
      refine ⟨xs ++ [l] ++ [n], rfl, chain.append cell ends (fun member => ?_) fun _ => rfl⟩
      exact apart (List.mem_cons_of_mem _ member)
  | resetNbPoints | resetPoints => exact (List.append_ne_nil_of_right_ne_nil _ (by simp) fits).elim
  | idle | resetLast | unlock => exact fits

namespace Consistent
variable {state next : State} {front rest : List Addr}

theorem create (consistent : Consistent state front rest) (idle : state.receiver = .idle)
    (timestamp : UInt32) (value : UInt64) :
    Consistent { state with
      points := state.points.alloc ⟨timestamp, value, none⟩
      receiver := .testLast state.points.next } front rest where
  chain := consistent.chain.alloc _
  passed := consistent.passed
  left := consistent.left
  once := consistent.once
  completed := consistent.completed
  freed := consistent.freed
  known a handed := by
    obtain ⟨point, cell⟩ := consistent.known a handed
    exact ⟨point, Cells.alloc_cells_old _ cell⟩
  last _ := consistent.last fun _ => by rw [idle]; exact ReceiverPc.noConfusion
  receiver := by
    refine ⟨⟨_, Cells.alloc_cells _ _, rfl⟩, fun member => ?_, fun handed => ?_⟩
    · obtain ⟨point, cell⟩ := consistent.chain.cell member
      exact Nat.lt_irrefl _ (Cells.lt_next cell)
    · obtain ⟨point, cell⟩ := consistent.known _ handed
      exact Nat.lt_irrefl _ (Cells.lt_next cell)
  writer := consistent.writer.alloc _
  stray := consistent.stray

/-- The receiver moves on and stores nothing. -/
theorem receive (consistent : Consistent state front rest)
    (elsewhere : ∀ newPoint, state.receiver ≠ .storeLast newPoint)
    (fits : ReceiverFits state.points state.handed front rest pc) :
    Consistent { state with receiver := pc } front rest :=
  { consistent with
    last := fun _ => consistent.last elsewhere
    receiver := fits }

theorem storePoints (consistent : Consistent state front rest)
    (new : New state.points state.handed (front ++ rest) newPoint)
    (empty : state.metric.points = none) (calm : state.writer.draining = false) :
    Consistent { state with
      metric := { state.metric with points := some newPoint }
      receiver := .storeLast newPoint } [] [newPoint] := by
  have none := consistent.chain
  rw [empty] at none
  obtain ⟨rfl, rfl⟩ := List.append_eq_nil_iff.mp none.eq_nil
  obtain ⟨point, cell, ends⟩ := new.cell
  refine { consistent with
    chain := .single cell ends
    left := ?_
    completed := fun a member => (consistent.completed a member).imp_right nofun
    last := fun elsewhere => (elsewhere _ rfl).elim
    receiver := .inr rfl
    writer := ?_ }
  · intro a member
    rw [List.mem_singleton.mp member]
    exact new.unknown
  · have fits := consistent.writer
    cases pc : state.writer <;> rw [pc] at fits calm <;> first | exact fits | contradiction

theorem storeNext {tail : Addr} (consistent : Consistent state front rest)
    (new : New state.points state.handed (front ++ rest) newPoint)
    (behind : Behind state.handed rest tail) (live : tail ∉ state.freed)
    (past : ¬ state.writer.Past tail) :
    Consistent { state with
      points := state.points.modify tail fun point => { point with next := some newPoint }
      strayStore := state.strayStore || decide (tail ∈ state.freed)
      receiver := .storeLast newPoint } front (rest ++ [newPoint]) := by
  have final : rest.getLast? = some tail := by
    rcases behind with handed | final
    · rcases consistent.freed tail handed with freed | reading
      · exact (live freed).elim
      · exact (past reading).elim
    · exact final
  obtain ⟨xs, rfl⟩ : ∃ xs, rest = xs ++ [tail] := List.getLast?_eq_some_iff.mp final
  obtain ⟨point, cell, ends⟩ := new.cell
  refine { consistent with
    chain := ?_
    left := ?_
    completed := ?_
    known := ?_
    last := fun elsewhere => (elsewhere _ rfl).elim
    receiver := .inr List.getLast?_concat
    writer := consistent.writer.append past new
    stray := ?_ }
  · have whole := consistent.chain
    rw [← List.append_assoc] at whole
    have apart := new.apart
    rw [← List.append_assoc] at apart
    rw [← List.append_assoc, ← List.append_assoc]
    exact whole.append cell ends apart fun _ => rfl
  · intro a member
    rcases List.mem_append.mp member with old | same
    · exact consistent.left a old
    · rw [List.mem_singleton.mp same]
      exact new.unknown
  · exact fun a member => (consistent.completed a member).imp_right (List.mem_append_left _)
  · intro a handed
    obtain ⟨known, there⟩ := consistent.known a handed
    exact Cells.modify_cells_some _ _ there
  · simp only [consistent.stray, live, decide_false, Bool.or_self]

theorem storeLast (consistent : Consistent state front rest)
    (behind : Behind state.handed rest newPoint) :
    Consistent { state with
      metric := { state.metric with last := some newPoint }
      receiver := .increment newPoint } front rest :=
  { consistent with
    last := fun _ a stored => by rwa [← Option.some.inj stored]
    receiver := behind.mem }

theorem increment (consistent : Consistent state front rest)
    (here : state.receiver = .increment newPoint)
    (inserted : newPoint ∈ state.handed ∨ newPoint ∈ rest) :
    Consistent { state with
      metric := { state.metric with nbPoints := state.metric.nbPoints + 1 }
      completed := state.completed ++ [newPoint]
      receiver := .idle } front rest :=
  { consistent with
    completed := fun a member => by
      rcases List.mem_append.mp member with old | same
      · exact consistent.completed a old
      · rwa [List.mem_singleton.mp same]
    last := fun _ => consistent.last fun _ => by rw [here]; exact ReceiverPc.noConfusion
    receiver := trivial }

theorem receiverStep (consistent : Consistent state front rest) (moved : ReceiverStep state next)
    (guarded : Guarded state next) : ∃ front rest, Consistent next front rest := by
  have fits := consistent.receiver
  cases moved with
  | create timestamp value idle => exact ⟨_, _, consistent.create idle timestamp value⟩
  | noPoints here | somePoints here =>
    rw [here] at fits
    exact ⟨_, _, consistent.receive (by rw [here]; nofun) fits⟩
  | readLast here stored =>
    rw [here] at fits
    have elsewhere : ∀ newPoint, state.receiver ≠ .storeLast newPoint := by rw [here]; nofun
    exact ⟨_, _, consistent.receive elsewhere ⟨fits, consistent.last elsewhere _ stored⟩⟩
  | storePoints here =>
    rw [here] at fits
    obtain ⟨empty, calm⟩ := guarded.first here (by rw [here]; exact ReceiverPc.noConfusion)
    exact ⟨_, _, consistent.storePoints fits empty calm⟩
  | storeNext here =>
    rw [here] at fits
    obtain ⟨live, past⟩ := guarded.behind here (by rw [here]; exact ReceiverPc.noConfusion)
    exact ⟨_, _, consistent.storeNext fits.1 fits.2 live past⟩
  | storeLast here =>
    rw [here] at fits
    exact ⟨_, _, consistent.storeLast fits⟩
  | increment here =>
    rw [here] at fits
    exact ⟨_, _, consistent.increment here fits⟩

end Consistent

/-! ### The writer -/

theorem WriterFits.readNext {points : Cells MetricPoint}
    (chain : Chain points MetricPoint.next (some mtP) rest) (cell : points.cells mtP = some point) :
    WriterFits points front rest (.write mtP point.next) := by
  obtain ⟨known, others, there, same, tail⟩ := chain.uncons
  obtain rfl := Option.some.inj (cell.symm.trans there)
  exact ⟨others, same, tail⟩

theorem Behind.write (behind : Behind handed (a :: others) b) :
    Behind (handed ++ [a]) others b := by
  rcases behind with passed | final
  · exact .inl (List.mem_append_left _ passed)
  · cases others with
    | nil =>
      obtain rfl : a = b := Option.some.inj final
      exact .inl (by simp)
    | cons c others => exact .inr (by rwa [List.getLast?_cons_cons] at final)

theorem mem_write {handed others : List Addr} (known : b ∈ handed ∨ b ∈ a :: others) :
    b ∈ handed ++ [a] ∨ b ∈ others := by
  rcases known with passed | member
  · exact .inl (List.mem_append_left _ passed)
  · rcases List.mem_cons.mp member with rfl | later
    · exact .inl (by simp)
    · exact .inr later

theorem New.write {points : Cells MetricPoint} (new : New points handed (front ++ a :: others) b) :
    New points (handed ++ [a]) (front ++ [a] ++ others) b := by
  refine ⟨new.cell, ?_, ?_⟩
  · rw [List.append_assoc]
    exact new.apart
  · have apart := new.apart
    have unknown := new.unknown
    simp only [List.mem_append, List.mem_cons, List.not_mem_nil] at apart unknown ⊢
    tauto

/-- What the receiver knows stays true when the first of the points left is passed on. -/
theorem ReceiverFits.write {points : Cells MetricPoint}
    (fits : ReceiverFits points handed front (a :: others) pc) :
    ReceiverFits points (handed ++ [a]) (front ++ [a]) others pc := by
  cases pc with
  | idle => trivial
  | testLast newPoint | storePoints newPoint | readLast newPoint => exact New.write fits
  | storeNext newPoint last => exact ⟨fits.1.write, fits.2.write⟩
  | storeLast newPoint => exact Behind.write fits
  | increment newPoint => exact mem_write fits

namespace Consistent
variable {state next : State} {front rest : List Addr}

theorem all_freed (consistent : Consistent state front rest)
    (calm : ∀ a, ¬ state.writer.Past a) : ∀ a ∈ state.handed, a ∈ state.freed :=
  fun a handed => (consistent.freed a handed).resolve_right (calm a)

/-- The writer moves on and touches neither the points nor the metric. -/
theorem proceed (consistent : Consistent state front rest) (calm : ∀ a, ¬ state.writer.Past a)
    (locked : Bool) (fits : WriterFits state.points front rest pc) :
    Consistent { state with locked := locked, writer := pc } front rest :=
  { consistent with
    freed := fun a handed => .inl (consistent.all_freed calm a handed)
    writer := fits }

/-- The first of the points left is passed on. -/
theorem write (consistent : Consistent state front (mtP :: others))
    (here : state.writer = .write mtP mtPNext)
    (chain : Chain state.points MetricPoint.next mtPNext others) :
    Consistent { state with
      handed := state.handed ++ [mtP]
      writer := .free mtP mtPNext } (front ++ [mtP]) others := by
  have addresses : front ++ mtP :: others = front ++ [mtP] ++ others := by simp
  have nodup := consistent.chain.nodup
  have fresh : mtP ∉ state.handed := consistent.left mtP List.mem_cons_self
  have single : mtP ∉ others := (List.nodup_cons.mp (List.nodup_append.mp nodup).2.1).1
  refine { consistent with
    chain := addresses ▸ consistent.chain
    passed := ?_
    left := ?_
    once := by simpa using consistent.once.concat fresh
    completed := fun a member => mem_write (consistent.completed a member)
    freed := ?_
    known := ?_
    last := fun elsewhere a stored => (consistent.last elsewhere a stored).write
    receiver := consistent.receiver.write
    writer := chain }
  · intro a member
    rcases List.mem_append.mp member with old | same
    · exact List.mem_append_left _ (consistent.passed a old)
    · exact List.mem_append_right _ same
  · intro a member again
    rcases List.mem_append.mp again with old | same
    · exact consistent.left a (List.mem_cons_of_mem _ member) old
    · rw [List.mem_singleton.mp same] at member
      exact single member
  · intro a member
    rcases List.mem_append.mp member with old | same
    · rcases consistent.freed a old with freed | past
      · exact .inl freed
      · rw [here] at past
        exact .inr past
    · exact .inr (List.mem_singleton.mp same).symm
  · intro a member
    rcases List.mem_append.mp member with old | same
    · exact consistent.known a old
    · rw [List.mem_singleton.mp same]
      exact consistent.chain.cell (by simp)

theorem free (consistent : Consistent state front rest) (here : state.writer = .free mtP mtPNext) :
    Consistent { state with freed := state.freed ++ [mtP], writer := .loop mtPNext } front rest := by
  have chain := consistent.writer
  rw [here] at chain
  refine { consistent with freed := fun a handed => .inl ?_, writer := chain }
  rcases consistent.freed a handed with freed | past
  · exact List.mem_append_left _ freed
  · rw [here] at past
    obtain rfl : mtP = a := past
    simp

/-- All points were passed on, and the list is given up. -/
theorem resetPoints (consistent : Consistent state front [])
    (here : state.writer = .resetPoints) :
    Consistent { state with
      metric := { state.metric with points := none }
      writer := .resetLast } [] [] := by
  have freed := consistent.all_freed fun a past => by rw [here] at past; exact past
  have fits := consistent.receiver
  refine { consistent with
    chain := .empty
    passed := nofun
    freed := fun a handed => .inl (freed a handed)
    receiver := ?_
    writer := rfl }
  cases pc : state.receiver with
  | testLast newPoint | storePoints newPoint | readLast newPoint =>
    rw [pc] at fits
    exact ⟨fits.cell, List.not_mem_nil, fits.unknown⟩
  | storeNext newPoint last =>
    rw [pc] at fits
    exact ⟨⟨fits.1.cell, List.not_mem_nil, fits.1.unknown⟩, fits.2⟩
  | idle | storeLast newPoint | increment newPoint =>
    rw [pc] at fits
    exact fits

theorem writerStep (consistent : Consistent state front rest) (moved : WriterStep state next) :
    ∃ front rest, Consistent next front rest := by
  have fits := consistent.writer
  have calm {pc : WriterPc} (here : state.writer = pc) (none : ∀ a, ¬ pc.Past a) (a : Addr) :
      ¬ state.writer.Past a := by
    rw [here]
    exact none a
  cases moved with
  | readPoints here =>
    rw [here] at fits
    obtain rfl : front = [] := fits
    exact ⟨_, _, consistent.proceed (calm here fun _ => id) _ ⟨rfl, consistent.chain⟩⟩
  | lock here =>
    rw [here] at fits
    exact ⟨_, _, consistent.proceed (calm here fun _ => id) true fits.2⟩
  | readNext here cell =>
    rw [here] at fits
    exact ⟨_, _, consistent.proceed (calm here fun _ => id) _ (.readNext fits cell)⟩
  | leave here =>
    rw [here] at fits
    exact ⟨_, _, consistent.proceed (calm here fun _ => id) _ (Chain.eq_nil fits)⟩
  | write here =>
    rw [here] at fits
    obtain ⟨others, rfl, chain⟩ := fits
    exact ⟨_, _, consistent.write here chain⟩
  | free here => exact ⟨_, _, consistent.free here⟩
  | resetNbPoints here =>
    rw [here] at fits
    have freed := consistent.all_freed (calm here fun _ => id)
    exact ⟨_, _, { consistent with
      freed := fun a handed => .inl (freed a handed)
      writer := fits }⟩
  | resetPoints here =>
    rw [here] at fits
    obtain rfl : rest = [] := fits
    exact ⟨_, _, consistent.resetPoints here⟩
  | resetLast here =>
    rw [here] at fits
    have freed := consistent.all_freed (calm here fun _ => id)
    exact ⟨_, _, { consistent with
      freed := fun a handed => .inl (freed a handed)
      last := fun _ _ stored => nomatch stored
      writer := fits }⟩
  | unlock here =>
    rw [here] at fits
    exact ⟨_, _, consistent.proceed (calm here fun _ => id) false fits⟩

end Consistent

end Carbond.Cache.Handover
