import Mathlib.Algebra.BigOperators.Field
import Mathlib.Algebra.Order.BigOperators.Group.Finset
import Mathlib.NumberTheory.Harmonic.Defs
import Mathlib.Tactic.FieldSimp
import Mathlib.Tactic.Linarith
import Mathlib.Tactic.Positivity
import Mathlib.Tactic.Ring

/-! Queues that are emptied largest first. While each turn empties a largest queue, and at most `k`
items come in between two turns, no queue of `n` grows longer than `k` times one plus the harmonic
number of `n - 1`. The argument bounds all sets of queues at once, by their number. -/
namespace Carbond.Backlog
open Finset
variable {α : Type} {queues : Finset α} {level : α → ℕ} {k taken : ℕ}

/-- What `j` of `n` queues hold at most behind a turn, in units of `k`. -/
def share (n j : ℕ) : ℚ := j * (1 + harmonic (n - 1) - harmonic j)

theorem share_zero (n : ℕ) : share n 0 = 0 := by simp [share]

theorem share_one (n : ℕ) : share n 1 = harmonic (n - 1) := by
  simp [share, harmonic_succ]

theorem share_all (n : ℕ) : share (n + 1) (n + 1) = n := by
  rw [share, Nat.add_sub_cancel, harmonic_succ]
  field_simp
  push_cast
  ring

/-- A largest queue among `j + 1` leaves the others what `j` may hold. -/
theorem share_largest (n j : ℕ) : j * (share n (j + 1) + 1) = (j + 1) * share n j := by
  rw [share, share, harmonic_succ]
  field_simp
  push_cast
  ring

theorem harmonic_mono (le : i ≤ j) : harmonic i ≤ harmonic j := by
  induction j, le using Nat.le_induction with
  | base => exact le_rfl
  | succ j le ih =>
    have positive : (0 : ℚ) ≤ (↑(j + 1))⁻¹ := by positivity
    rw [harmonic_succ]
    linarith

theorem share_succ_sub (n j : ℕ) : share n (j + 1) - share n j = harmonic (n - 1) - harmonic j := by
  rw [share, share, harmonic_succ]
  field_simp
  push_cast
  ring

theorem share_le_succ (le : j + 1 ≤ n) : share n j ≤ share n (j + 1) := by
  have more := harmonic_mono (show j ≤ n - 1 by omega)
  have step := share_succ_sub n j
  linarith

theorem share_nonneg (le : j ≤ n) : 0 ≤ share n j := by
  induction j with
  | zero => exact (share_zero n).ge
  | succ j ih => exact (ih (by omega)).trans (share_le_succ le)

/-- Every set of queues holds its share, but for the items that came in since the last turn. -/
def Levelled (queues : Finset α) (k taken : ℕ) (level : α → ℕ) : Prop :=
  ∀ some ⊆ queues, (∑ q ∈ some, level q : ℕ) ≤ k * share queues.card some.card + taken

theorem levelled_empty (queues : Finset α) (k : ℕ) (zero : ∀ q ∈ queues, level q = 0) :
    Levelled queues k 0 level := by
  intro some within
  rw [sum_eq_zero fun q member => zero q (within member)]
  have nonneg := share_nonneg (card_le_card within)
  simp only [Nat.cast_zero, add_zero]
  positivity

/-- An item comes in. -/
theorem Levelled.grow [DecidableEq α] (levelled : Levelled queues k taken level) (q : α) :
    Levelled queues k (taken + 1) (Function.update level q (level q + 1)) := by
  intro some within
  have before := levelled some within
  have grown : ∑ x ∈ some, Function.update level q (level q + 1) x ≤ ∑ x ∈ some, level x + 1 := by
    by_cases member : q ∈ some
    · rw [sum_update_of_mem member, ← sum_sdiff (singleton_subset_iff.mpr member), sum_singleton]
      omega
    · rw [sum_update_of_notMem member]
      omega
  have grown : ((∑ x ∈ some, Function.update level q (level q + 1) x : ℕ) : ℚ) ≤
      (∑ x ∈ some, level x : ℕ) + 1 := by exact_mod_cast grown
  push_cast at *
  linarith

/-- A largest queue is emptied. -/
theorem Levelled.flush [DecidableEq α] (levelled : Levelled queues k taken level) (paced : taken ≤ k)
    (present : m ∈ queues) (largest : ∀ q ∈ queues, level q ≤ level m) :
    Levelled queues k 0 (Function.update level m 0) := by
  intro some within
  -- Without the queue that is emptied, a set holds no less than with it.
  have rest : ((∑ q ∈ some.erase m, level q : ℕ) : ℚ) ≤
      k * share queues.card (some.erase m).card := by
    have with_m := levelled (insert m (some.erase m))
      (insert_subset present ((erase_subset m some).trans within))
    rw [sum_insert (notMem_erase m some), card_insert_of_notMem (notMem_erase m some)] at with_m
    have least : ∑ q ∈ some.erase m, level q ≤ (some.erase m).card * level m :=
      sum_le_card_nsmul _ _ _ fun q member => largest q (within (mem_of_mem_erase member))
    generalize (some.erase m).card = j at *
    generalize ∑ q ∈ some.erase m, level q = others at *
    have least : (others : ℚ) ≤ j * level m := by exact_mod_cast least
    have paced : (taken : ℚ) ≤ k := by exact_mod_cast paced
    have scaled : (j + 1) * (others : ℚ) ≤ (j + 1) * (k * share queues.card j) := by
      calc (j + 1) * (others : ℚ) ≤ j * (level m + others) := by linarith
        _ ≤ j * (k * (share queues.card (j + 1) + 1)) := by
            apply mul_le_mul_of_nonneg_left _ (Nat.cast_nonneg j)
            push_cast at with_m
            linarith
        _ = k * (j * (share queues.card (j + 1) + 1)) := by ring
        _ = (j + 1) * (k * share queues.card j) := by
            rw [share_largest]
            ring
    exact le_of_mul_le_mul_left scaled (by positivity)
  by_cases member : m ∈ some
  · have fewer := card_erase_add_one member
    have more : share queues.card (some.erase m).card ≤ share queues.card some.card := by
      rw [← fewer]
      exact share_le_succ (fewer ▸ card_le_card within)
    rw [sum_update_of_mem member, sdiff_singleton_eq_erase, Nat.zero_add, Nat.cast_zero, add_zero]
    exact rest.trans (mul_le_mul_of_nonneg_left more (Nat.cast_nonneg k))
  · rw [sum_update_of_notMem member, Nat.cast_zero, add_zero]
    rwa [erase_eq_of_notMem member] at rest

/-- No queue is longer. -/
theorem Levelled.bound (levelled : Levelled queues k taken level) (paced : taken ≤ k)
    (present : q ∈ queues) : (level q : ℚ) ≤ k * (1 + harmonic (queues.card - 1)) := by
  have alone := levelled {q} (singleton_subset_iff.mpr present)
  rw [sum_singleton, card_singleton, share_one] at alone
  have paced : (taken : ℚ) ≤ k := by exact_mod_cast paced
  linarith

/-- All queues together. -/
theorem Levelled.total (levelled : Levelled queues k taken level) (paced : taken ≤ k) :
    ∑ q ∈ queues, level q ≤ k * queues.card := by
  have all := levelled queues (Subset.refl queues)
  cases number : queues.card with
  | zero => simp [card_eq_zero.mp number]
  | succ n =>
    rw [number, share_all] at all
    have all : ∑ q ∈ queues, level q ≤ k * n + taken := by exact_mod_cast all
    rw [Nat.mul_succ]
    omega

end Carbond.Backlog
