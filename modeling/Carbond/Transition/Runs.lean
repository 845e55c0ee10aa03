import Mathlib.Data.List.Chain
import Mathlib.Data.List.Dedup
import Mathlib.Data.List.Perm.Basic

/-! Runs of a system that takes one step after another: invariants, and which of the steps decide
whether a property holds all along. -/
namespace Carbond.Transition
variable {σ : Type} {step good : σ → σ → Prop} {inv safe : σ → Prop} {s t : σ} {later : List σ}

/-- A run from a state, with the states after it in order. -/
def Run (step : σ → σ → Prop) (s : σ) (later : List σ) : Prop := List.IsChain step (s :: later)

namespace Run

theorem nil : Run step s [] := .singleton s

theorem cons (head : step s t) (tail : Run step t later) : Run step s (t :: later) :=
  .cons_cons head tail

theorem cons_iff : Run step s (t :: later) ↔ step s t ∧ Run step t later :=
  List.isChain_cons_cons

theorem invariant (run : Run step s later) (start : inv s)
    (kept : ∀ s t, inv s → step s t → inv t) : ∀ t ∈ s :: later, inv t := by
  induction later generalizing s with
  | nil =>
    intro t member
    rw [List.mem_singleton.mp member]
    exact start
  | cons next rest ih =>
    obtain ⟨head, tail⟩ := cons_iff.mp run
    intro t member
    rcases List.mem_cons.mp member with rfl | further
    · exact start
    · exact ih tail (kept s next start head) t further

/-- When good steps keep the invariant, and any other step leaves the safe states at once, a run
stays safe exactly if all its steps are good. -/
theorem safe_iff (run : Run step s later) (start : inv s)
    (kept : ∀ s t, inv s → step s t → good s t → inv t) (holds : ∀ s, inv s → safe s)
    (breaks : ∀ s t, inv s → step s t → ¬ good s t → ¬ safe t) :
    (∀ t ∈ s :: later, safe t) ↔ Run good s later := by
  induction later generalizing s with
  | nil =>
    refine ⟨fun _ => nil, fun _ t member => ?_⟩
    rw [List.mem_singleton.mp member]
    exact holds s start
  | cons next rest ih =>
    obtain ⟨head, tail⟩ := cons_iff.mp run
    rw [cons_iff, List.forall_mem_cons]
    by_cases well : good s next
    · rw [ih tail (kept s next start head well)]
      exact ⟨fun all => ⟨well, all.2⟩, fun all => ⟨holds s start, all.2⟩⟩
    · have broken := breaks s next start head well
      exact ⟨fun all => (broken (all.2 next List.mem_cons_self)).elim,
        fun all => (well all.1).elim⟩

end Run

/-! ### Inputs in order -/

section
variable {α β : Type} {f : β → α → β} {r : α → α → Prop} {inputs inputs' : List α}

/-- Repeated inputs count once. -/
theorem foldl_dedup [DecidableEq α] (anti : ∀ a b, r a b → r b a → a = b)
    (again : ∀ s a, f (f s a) a = f s a) (ordered : inputs.Pairwise r) (s : β) :
    inputs.dedup.foldl f s = inputs.foldl f s := by
  induction inputs generalizing s with
  | nil => rfl
  | cons a rest ih =>
    obtain ⟨before, ordered⟩ := List.pairwise_cons.mp ordered
    by_cases repeated : a ∈ rest
    · rw [List.dedup_cons_of_mem repeated, ih ordered]
      cases rest with
      | nil => contradiction
      | cons b further =>
        -- The repetition comes at once.
        have same : a = b := by
          rcases List.mem_cons.mp repeated with here | later
          · exact here
          · have first := before b List.mem_cons_self
            exact anti a b first ((List.pairwise_cons.mp ordered).1 a later)
        rw [same, List.foldl_cons, List.foldl_cons, List.foldl_cons, again]
    · rw [List.dedup_cons_of_notMem repeated, List.foldl_cons, List.foldl_cons, ih ordered]

/-- When a repeated input changes nothing, what inputs in order lead to depends on which they are. -/
theorem foldl_eq_of_mem_iff (anti : ∀ a b, r a b → r b a → a = b)
    (again : ∀ s a, f (f s a) a = f s a) (ordered : inputs.Pairwise r)
    (ordered' : inputs'.Pairwise r) (same : ∀ a, a ∈ inputs ↔ a ∈ inputs') (s : β) :
    inputs.foldl f s = inputs'.foldl f s := by
  classical
  rw [← foldl_dedup anti again ordered, ← foldl_dedup anti again ordered']
  have members : inputs.dedup.Perm inputs'.dedup := by
    apply (List.perm_ext_iff_of_nodup (List.nodup_dedup _) (List.nodup_dedup _)).mpr
    intro a
    rw [List.mem_dedup, List.mem_dedup, same]
  rw [members.eq_of_pairwise (fun a b _ _ => anti a b) (ordered.sublist (List.dedup_sublist _))
    (ordered'.sublist (List.dedup_sublist _))]

end
end Carbond.Transition
