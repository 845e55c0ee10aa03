import Mathlib.Data.Nat.Notation
import Mathlib.Logic.Function.Basic

/-! Memory as numbered cells. Addresses are handed out in order and never reused, so a cell that
was freed stays empty. -/
namespace Carbond.Heap

structure Cells (α : Type) where
  cells : ℕ → Option α
  next : ℕ
  unused : ∀ a, next ≤ a → cells a = none

namespace Cells
variable {α : Type} {h : Cells α}

def empty : Cells α := ⟨fun _ => none, 0, fun _ _ => rfl⟩

theorem lt_next (allocated : h.cells a = some v) : a < h.next := by
  by_contra beyond
  rw [h.unused a (Nat.le_of_not_lt beyond)] at allocated
  contradiction

/-- The new cell is at the address `h.next`. -/
def alloc (h : Cells α) (v : α) : Cells α where
  cells := Function.update h.cells h.next (some v)
  next := h.next + 1
  unused a beyond := by
    rw [Function.update_of_ne (by omega)]
    exact h.unused a (by omega)

@[simp] theorem alloc_cells (h : Cells α) (v : α) : (h.alloc v).cells h.next = some v :=
  Function.update_self _ _ _

@[simp] theorem alloc_next (h : Cells α) (v : α) : (h.alloc v).next = h.next + 1 := rfl

theorem alloc_cells_other (h : Cells α) (v : α) (other : a ≠ h.next) :
    (h.alloc v).cells a = h.cells a := Function.update_of_ne other _ _

theorem alloc_cells_old (v : α) (allocated : h.cells a = some u) : (h.alloc v).cells a = some u := by
  rwa [alloc_cells_other h v (Nat.ne_of_lt (lt_next allocated))]

/-- Nothing happens at an address that is not in use. -/
def modify (h : Cells α) (a : ℕ) (f : α → α) : Cells α where
  cells := Function.update h.cells a ((h.cells a).map f)
  next := h.next
  unused b beyond := by
    by_cases same : b = a
    · rw [same, Function.update_self, ← same, h.unused b beyond, Option.map_none]
    · rw [Function.update_of_ne same, h.unused b beyond]

theorem modify_cells_self (h : Cells α) (a : ℕ) (f : α → α) :
    (h.modify a f).cells a = (h.cells a).map f := Function.update_self _ _ _

theorem modify_cells (f : α → α) (allocated : h.cells a = some v) :
    (h.modify a f).cells a = some (f v) := by
  rw [modify_cells_self, allocated, Option.map_some]

@[simp] theorem modify_next (h : Cells α) (a : ℕ) (f : α → α) : (h.modify a f).next = h.next := rfl

theorem modify_cells_other (h : Cells α) (f : α → α) (other : b ≠ a) :
    (h.modify a f).cells b = h.cells b := Function.update_of_ne other _ _

theorem modify_cells_some (a : ℕ) (f : α → α) (allocated : h.cells b = some v) :
    ∃ u, (h.modify a f).cells b = some u := by
  by_cases same : b = a
  · subst same
    exact ⟨f v, modify_cells f allocated⟩
  · exact ⟨v, (modify_cells_other h f same).trans allocated⟩

def free (h : Cells α) (a : ℕ) : Cells α where
  cells := Function.update h.cells a none
  next := h.next
  unused b beyond := by
    by_cases same : b = a
    · rw [same, Function.update_self]
    · rw [Function.update_of_ne same, h.unused b beyond]

@[simp] theorem free_cells (h : Cells α) (a : ℕ) : (h.free a).cells a = none :=
  Function.update_self _ _ _

@[simp] theorem free_next (h : Cells α) (a : ℕ) : (h.free a).next = h.next := rfl

theorem free_cells_other (h : Cells α) (other : b ≠ a) : (h.free a).cells b = h.cells b :=
  Function.update_of_ne other _ _

end Cells
end Carbond.Heap
