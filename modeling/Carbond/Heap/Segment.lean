import Carbond.Heap.Cells
import Mathlib.Data.List.Nodup
import Mathlib.Data.List.Perm.Subperm

/-! Singly linked lists in memory. A segment is what lies between two pointers; a queue is a list
up to NULL, held by pointers to its first and its last node. -/
namespace Carbond.Heap
variable {α : Type} {h h' : Cells α} {link : α → Option ℕ}

/-- The nodes from one pointer up to another, each with its address and its contents. -/
def Segment (h : Cells α) (link : α → Option ℕ) : Option ℕ → List (ℕ × α) → Option ℕ → Prop
  | p, [], q => p = q
  | p, (a, v) :: rest, q => p = some a ∧ h.cells a = some v ∧ Segment h link (link v) rest q

/-- A pointer leads to this address, over any number of links. -/
inductive Linked (h : Cells α) (link : α → Option ℕ) : Option ℕ → ℕ → Prop
  | here : Linked h link (some a) a
  | further : h.cells a = some v → Linked h link (link v) b → Linked h link (some a) b

namespace Segment

theorem append (front : Segment h link p xs m) (back : Segment h link m ys q) :
    Segment h link p (xs ++ ys) q := by
  induction xs generalizing p with
  | nil =>
    obtain rfl : p = m := front
    exact back
  | cons node rest ih =>
    obtain ⟨start, cell, tail⟩ := front
    exact ⟨start, cell, ih tail⟩

theorem split (whole : Segment h link p (xs ++ ys) q) :
    ∃ m, Segment h link p xs m ∧ Segment h link m ys q := by
  induction xs generalizing p with
  | nil => exact ⟨p, rfl, whole⟩
  | cons node rest ih =>
    obtain ⟨start, cell, tail⟩ := whole
    obtain ⟨m, front, back⟩ := ih tail
    exact ⟨m, ⟨start, cell, front⟩, back⟩

theorem congr (segment : Segment h link p nodes q)
    (same : ∀ node ∈ nodes, h'.cells node.1 = h.cells node.1) : Segment h' link p nodes q := by
  induction nodes generalizing p with
  | nil => exact segment
  | cons node rest ih =>
    obtain ⟨start, cell, tail⟩ := segment
    exact ⟨start, (same node List.mem_cons_self).trans cell,
      ih tail fun other member => same other (List.mem_cons_of_mem _ member)⟩

theorem cell (segment : Segment h link p nodes q) (node : ℕ × α) (member : node ∈ nodes) :
    h.cells node.1 = some node.2 := by
  induction nodes generalizing p with
  | nil => contradiction
  | cons first rest ih =>
    obtain ⟨_, cell, tail⟩ := segment
    rcases List.mem_cons.mp member with rfl | later
    · exact cell
    · exact ih tail later

theorem linked_iff (segment : Segment h link p nodes none) :
    Linked h link p a ↔ a ∈ nodes.map Prod.fst := by
  constructor
  · intro linked
    induction linked generalizing nodes with
    | here =>
      cases nodes with
      | nil => exact nomatch segment
      | cons node rest =>
        rw [Option.some.inj segment.1]
        exact List.mem_cons_self
    | further cell _ ih =>
      cases nodes with
      | nil => exact nomatch segment
      | cons node rest =>
        obtain ⟨start, known, tail⟩ := segment
        rw [← Option.some.inj start, cell] at known
        rw [← Option.some.inj known] at tail
        exact List.mem_cons_of_mem _ (ih tail)
  · intro member
    induction nodes generalizing p with
    | nil => contradiction
    | cons node rest ih =>
      obtain ⟨rfl, cell, tail⟩ := segment
      rcases List.mem_cons.mp member with rfl | later
      · exact .here
      · exact .further cell (ih tail later)

/-- What a pointer leads to is determined by the memory. -/
theorem unique (first : Segment h link p xs none) (second : Segment h link p ys none) : xs = ys := by
  induction xs generalizing p ys with
  | nil =>
    cases ys with
    | nil => rfl
    | cons node rest => exact nomatch first.symm.trans second.1
  | cons node rest ih =>
    obtain ⟨start, cell, tail⟩ := first
    cases ys with
    | nil => exact nomatch start.symm.trans second
    | cons node' rest' =>
      obtain ⟨start', cell', tail'⟩ := second
      have address : node.1 = node'.1 := Option.some.inj (start.symm.trans start')
      have contents : node.2 = node'.2 := by
        rw [address] at cell
        exact Option.some.inj (cell.symm.trans cell')
      rw [contents] at tail
      rw [ih tail tail', Prod.ext address contents]

/-- A list that ends has no address twice. -/
theorem nodup (segment : Segment h link p nodes none) : (nodes.map Prod.fst).Nodup := by
  induction nodes generalizing p with
  | nil => exact List.nodup_nil
  | cons node rest ih =>
    obtain ⟨start, cell, tail⟩ := segment
    refine List.nodup_cons.mpr ⟨fun again => ?_, ih tail⟩
    -- From a second visit on, the list would be as long as from the first one on.
    obtain ⟨⟨a, v⟩, member, same⟩ := List.mem_map.mp again
    obtain ⟨before, behind, cut⟩ := List.append_of_mem member
    rw [cut] at tail
    obtain ⟨m, _, back⟩ := tail.split
    have here : m = some node.1 := back.1.trans (congrArg some same)
    rw [here] at back
    have whole : Segment h link (some node.1) (node :: rest) none := by
      refine ⟨rfl, cell, ?_⟩
      rw [cut]
      exact tail
    have equal := congrArg List.length (whole.unique back)
    rw [cut] at equal
    simp only [List.length_cons, List.length_append] at equal
    omega

/-- A list has at most as many nodes as there are cells. -/
theorem length_le (segment : Segment h link p nodes none) : nodes.length ≤ h.next := by
  have inside : nodes.map Prod.fst ⊆ List.range h.next := by
    intro a member
    obtain ⟨node, known, rfl⟩ := List.mem_map.mp member
    exact List.mem_range.mpr (Cells.lt_next (segment.cell node known))
  have shorter := (segment.nodup.subperm inside).length_le
  rwa [List.length_map, List.length_range] at shorter

theorem not_mem_of_apart {nodes : List (ℕ × α)} (apart : a ∉ nodes.map Prod.fst)
    (member : node ∈ nodes) : node.1 ≠ a :=
  fun same => apart (same ▸ List.mem_map_of_mem member)

theorem alloc (segment : Segment h link p nodes q) (v : α) : Segment (h.alloc v) link p nodes q :=
  segment.congr fun node member =>
    (Cells.alloc_cells_old v (segment.cell node member)).trans (segment.cell node member).symm

theorem modify_apart (segment : Segment h link p nodes q) (f : α → α)
    (apart : a ∉ nodes.map Prod.fst) : Segment (h.modify a f) link p nodes q :=
  segment.congr fun _ member => Cells.modify_cells_other h f (not_mem_of_apart apart member)

theorem free_apart (segment : Segment h link p nodes q) (apart : a ∉ nodes.map Prod.fst) :
    Segment (h.free a) link p nodes q :=
  segment.congr fun _ member => Cells.free_cells_other h (not_mem_of_apart apart member)

end Segment

/-- The addresses around a node of a list without repetition. -/
theorem apart_of_nodup (nodup : ((xs ++ (a, v) :: ys : List (ℕ × α)).map Prod.fst).Nodup) :
    a ∉ xs.map Prod.fst ∧ a ∉ ys.map Prod.fst := by
  rw [List.map_append, List.map_cons, List.nodup_append] at nodup
  obtain ⟨_, behind, disjoint⟩ := nodup
  exact ⟨fun before => disjoint a before a List.mem_cons_self rfl, (List.nodup_cons.mp behind).1⟩

theorem Linked.of_end (linked : Linked h link (some a) b) (cell : h.cells a = some v)
    (ends : link v = none) : b = a := by
  cases linked with
  | here => rfl
  | further known tail =>
    rw [← Option.some.inj (cell.symm.trans known), ends] at tail
    exact nomatch tail

/-- The whole list, with its last node. -/
structure Queue (h : Cells α) (link : α → Option ℕ) (first last : Option ℕ)
    (nodes : List (ℕ × α)) : Prop where
  segment : Segment h link first nodes none
  final : last = nodes.getLast?.map Prod.fst

namespace Queue

theorem empty : Queue h link none none [] := ⟨rfl, rfl⟩

theorem last_eq_none (queue : Queue h link first last nodes) : last = none ↔ nodes = [] := by
  rw [queue.final, Option.map_eq_none_iff, List.getLast?_eq_none_iff]

theorem congr (queue : Queue h link first last nodes)
    (same : ∀ node ∈ nodes, h'.cells node.1 = h.cells node.1) : Queue h' link first last nodes :=
  ⟨queue.segment.congr same, queue.final⟩

theorem start (cell : h.cells n = some v) (ends : link v = none) :
    Queue h link (some n) (some n) [(n, v)] := ⟨⟨rfl, cell, ends⟩, rfl⟩

/-- Linking a node behind the last one. -/
theorem append (queue : Queue h link first last (xs ++ [(l, u)])) (cell : h.cells n = some v)
    (ends : link v = none) (new : n ∉ (xs ++ [(l, u)]).map Prod.fst) (linked : link (f u) = some n) :
    Queue (h.modify l f) link first (some n) ((xs ++ [(l, f u)]) ++ [(n, v)]) := by
  obtain ⟨before, _⟩ := apart_of_nodup queue.segment.nodup
  obtain ⟨m, front, back⟩ := queue.segment.split
  obtain ⟨start, tail, _⟩ := back
  have other : n ≠ l := by
    rintro rfl
    exact new (by simp)
  refine ⟨?_, by simp⟩
  refine Segment.append (Segment.append (front.modify_apart f before) ?_) (m := some n) ?_
  · exact ⟨start, Cells.modify_cells f tail, linked⟩
  · exact ⟨rfl, (Cells.modify_cells_other h f other).trans cell, ends⟩

/-- Changing a node's contents but not its link. -/
theorem modify (queue : Queue h link first last (xs ++ (a, v) :: ys)) (kept : link (f v) = link v) :
    Queue (h.modify a f) link first last (xs ++ (a, f v) :: ys) := by
  obtain ⟨before, behind⟩ := apart_of_nodup queue.segment.nodup
  obtain ⟨m, front, start, cell, tail⟩ := queue.segment.split
  refine ⟨(front.modify_apart f before).append ⟨start, Cells.modify_cells f cell, ?_⟩, ?_⟩
  · rw [kept]
    exact tail.modify_apart f behind
  · rw [queue.final]
    cases ys with
    | nil => simp
    | cons node rest => simp [List.getLast?_cons]

end Queue

/-- The addresses from a pointer on, up to NULL. -/
def Chain (h : Cells α) (link : α → Option ℕ) (p : Option ℕ) (addresses : List ℕ) : Prop :=
  ∃ nodes, Segment h link p nodes none ∧ nodes.map Prod.fst = addresses

namespace Chain

theorem empty : Chain h link none [] := ⟨[], rfl, rfl⟩

theorem single (cell : h.cells a = some v) (ends : link v = none) : Chain h link (some a) [a] :=
  ⟨[(a, v)], ⟨rfl, cell, ends⟩, rfl⟩

theorem eq_nil (chain : Chain h link none addresses) : addresses = [] := by
  obtain ⟨nodes, segment, rfl⟩ := chain
  cases nodes with
  | nil => rfl
  | cons node rest => exact nomatch segment.1

theorem uncons (chain : Chain h link (some a) addresses) : ∃ v rest,
    h.cells a = some v ∧ addresses = a :: rest ∧ Chain h link (link v) rest := by
  obtain ⟨nodes, segment, rfl⟩ := chain
  cases nodes with
  | nil => exact nomatch segment
  | cons node rest =>
    obtain ⟨start, cell, tail⟩ := segment
    cases start
    exact ⟨node.2, rest.map Prod.fst, cell, rfl, rest, tail, rfl⟩

theorem nodup (chain : Chain h link p addresses) : addresses.Nodup := by
  obtain ⟨nodes, segment, rfl⟩ := chain
  exact segment.nodup

theorem cell (chain : Chain h link p addresses) (member : a ∈ addresses) :
    ∃ v, h.cells a = some v := by
  obtain ⟨nodes, segment, rfl⟩ := chain
  obtain ⟨node, inside, rfl⟩ := List.mem_map.mp member
  exact ⟨node.2, segment.cell node inside⟩

theorem linked (chain : Chain h link p addresses) (member : a ∈ addresses) :
    Linked h link p a := by
  obtain ⟨nodes, segment, rfl⟩ := chain
  exact segment.linked_iff.mpr member

theorem alloc (chain : Chain h link p addresses) (v : α) : Chain (h.alloc v) link p addresses := by
  obtain ⟨nodes, segment, same⟩ := chain
  exact ⟨nodes, segment.alloc v, same⟩

/-- A node is linked behind the last one. -/
theorem append (chain : Chain h link p (front ++ [l])) (cell : h.cells n = some v)
    (ends : link v = none) (apart : n ∉ front ++ [l]) (linked : ∀ u, link (f u) = some n) :
    Chain (h.modify l f) link p (front ++ [l] ++ [n]) := by
  obtain ⟨nodes, segment, same⟩ := chain
  obtain ⟨before, final, rfl, rfl, last⟩ := List.map_eq_append_iff.mp same
  obtain ⟨⟨_, u⟩, rfl, rfl⟩ := List.map_eq_singleton_iff.mp last
  rw [← same] at apart
  have queue : Queue h link p (some _) (before ++ [(_, u)]) := ⟨segment, by simp; rfl⟩
  exact ⟨_, (queue.append cell ends apart (linked u)).segment, by simp⟩

end Chain
end Carbond.Heap
