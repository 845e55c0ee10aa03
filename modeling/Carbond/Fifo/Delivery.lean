import Mathlib.Data.List.Basic
import Mathlib.Logic.Function.Basic

/-! First-in first-out delivery by name. Items are received under a name, wait in the queue of that
name, and are handed on a whole queue at a time. -/
namespace Carbond.Fifo
variable {κ σ : Type} [DecidableEq κ]

/-- The items of one name in a log, in order. -/
def under (log : List (κ × σ)) (name : κ) : List σ :=
  (log.filter fun entry => entry.1 = name).map Prod.snd

@[simp] theorem under_nil (name : κ) : under ([] : List (κ × σ)) name = [] := rfl

theorem under_append (log more : List (κ × σ)) (name : κ) :
    under (log ++ more) name = under log name ++ under more name := by
  simp [under]

theorem under_same (name : κ) (items : List σ) :
    under (items.map fun item => (name, item)) name = items := by
  simp [under, List.filter_map, Function.comp_def]

theorem under_other {name name' : κ} (other : name' ≠ name) (items : List σ) :
    under (items.map fun item => (name, item)) name' = [] := by
  simp [under, List.filter_map, Function.comp_def, Ne.symm other]

/-- The items of a name with it are its entries in the log. -/
theorem map_under (log : List (κ × σ)) (name : κ) :
    (under log name).map (fun item => (name, item)) = log.filter fun entry => entry.1 = name := by
  rw [under, List.map_map]
  refine (List.map_congr_left fun entry member => ?_).trans (List.map_id _)
  obtain rfl : entry.1 = name := of_decide_eq_true (List.mem_filter.mp member).2
  rfl

theorem mem_under {log : List (κ × σ)} : item ∈ under log name ↔ (name, item) ∈ log := by
  simp [under]

/-- An item that already waits is the first of those that come. -/
theorem update_append_under (queued : κ → List σ) (name : κ) (item : σ) (log : List (κ × σ)) (name' : κ) :
    Function.update queued name (queued name ++ [item]) name' ++ under log name' =
      queued name' ++ under ((name, item) :: log) name' := by
  have single := under_append [(name, item)] log name'
  rw [List.singleton_append] at single
  rw [single, ← List.append_assoc]
  by_cases same : name' = name
  · subst same
    rw [Function.update_self]
    exact congrArg (queued name' ++ · ++ under log name') (under_same name' [item]).symm
  · rw [Function.update_of_ne same]
    have other := under_other same [item]
    rw [List.map_singleton] at other
    rw [other, List.append_nil]

/-- Everything received was either handed on or waits, in order and once. -/
def Delivered (received handed : List (κ × σ)) (queued : κ → List σ) : Prop :=
  ∀ name, under handed name ++ queued name = under received name

namespace Delivered
variable {received handed : List (κ × σ)} {queued : κ → List σ}

theorem start : Delivered ([] : List (κ × σ)) [] fun _ => [] := fun _ => rfl

theorem receive (delivered : Delivered received handed queued) (name : κ) (item : σ) :
    Delivered (received ++ [(name, item)]) handed
      (Function.update queued name (queued name ++ [item])) := by
  intro other
  have single := under_append received [(name, item)] other
  rw [single, ← delivered other]
  by_cases same : other = name
  · subst same
    rw [Function.update_self, ← List.append_assoc]
    exact congrArg _ (under_same other [item]).symm
  · rw [Function.update_of_ne same]
    exact (congrArg _ (under_other same [item])).trans (List.append_nil _) |>.symm

theorem hand (delivered : Delivered received handed queued) (name : κ) :
    Delivered received (handed ++ (queued name).map fun item => (name, item))
      (Function.update queued name []) := by
  intro other
  rw [under_append, ← delivered other]
  by_cases same : other = name
  · subst same
    rw [Function.update_self, under_same, List.append_nil]
  · rw [Function.update_of_ne same, under_other same, List.append_nil]

/-- Nothing is handed on that was not received. -/
theorem subset (delivered : Delivered received handed queued) : handed ⊆ received := by
  rintro ⟨name, item⟩ member
  have inside := List.mem_append_left (queued name) (mem_under.mpr member)
  rw [delivered name] at inside
  exact mem_under.mp inside

end Delivered
end Carbond.Fifo
