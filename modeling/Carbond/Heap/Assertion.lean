import Carbond.Heap.Cells
import Mathlib.Algebra.Order.Quantale
import Mathlib.Data.Finset.Card
import Mathlib.Order.CompletePartialOrder

/-! What holds of parts of a memory. A product of assertions holds of a part that falls into two, one
for each factor; with it the assertions are a commutative quantale, so that suprema are statements of
existence, and lists of assertions about separate parts can be reordered freely. -/
namespace Carbond.Heap
variable {α : Type}

/-- A part of a memory. -/
abbrev Fragment (α : Type) := ℕ → Option α

namespace Fragment
variable {f g k : Fragment α}

def nothing : Fragment α := fun _ => none

/-- No address is in both. -/
def Apart (f g : Fragment α) : Prop := ∀ a, f a = none ∨ g a = none

def join (f g : Fragment α) : Fragment α := fun a => (f a).or (g a)

theorem Apart.symm (apart : Apart f g) : Apart g f := fun a => (apart a).symm

theorem join_comm (apart : Apart f g) : join f g = join g f := by
  funext a
  rcases apart a with absent | absent
  · simp [join, absent]
  · simp [join, absent]

theorem join_assoc (f g k : Fragment α) : join (join f g) k = join f (join g k) := by
  funext a
  exact Option.or_assoc

theorem nothing_join (f : Fragment α) : join nothing f = f := rfl

theorem apart_join : Apart (join f g) k ↔ Apart f k ∧ Apart g k := by
  constructor
  · intro apart
    constructor
    · intro a
      exact (apart a).imp_left fun absent => (Option.or_eq_none_iff.mp absent).1
    · intro a
      exact (apart a).imp_left fun absent => (Option.or_eq_none_iff.mp absent).2
  · rintro ⟨first, second⟩ a
    rcases first a with absent | absent
    · rcases second a with absent' | absent'
      · exact .inl (Option.or_eq_none_iff.mpr ⟨absent, absent'⟩)
      · exact .inr absent'
    · exact .inr absent

theorem join_ne_none_left (present : f a ≠ none) : join f g a ≠ none :=
  fun absent => present (Option.or_eq_none_iff.mp absent).1

theorem join_ne_none_right (present : g a ≠ none) : join f g a ≠ none :=
  fun absent => present (Option.or_eq_none_iff.mp absent).2

end Fragment

/-- What may hold of a part of a memory. -/
def Assertion (α : Type) := Fragment α → Prop

namespace Assertion
open Fragment
variable {P Q R : Assertion α}

/-- One assertion is below another if it implies it. -/
instance : CompleteLattice (Assertion α) := inferInstanceAs (CompleteLattice (Fragment α → Prop))

instance : Mul (Assertion α) where
  mul P Q f := ∃ g k, Apart g k ∧ join g k = f ∧ P g ∧ Q k

/-- There is no memory. -/
instance : One (Assertion α) where
  one f := f = nothing

theorem iSup_holds {ι : Sort*} {P : ι → Assertion α} {f : Fragment α} :
    (⨆ i, P i) f ↔ ∃ i, P i f := by
  have applied := @iSup_apply (Fragment α) (fun _ => Prop) _ _ P f
  rw [iSup_Prop_eq] at applied
  exact Iff.of_eq applied

theorem sSup_holds {S : Set (Assertion α)} {f : Fragment α} : (sSup S) f ↔ ∃ P ∈ S, P f := by
  rw [sSup_eq_iSup, iSup_holds]
  simp only [iSup_holds, exists_prop]

protected theorem mul_comm (P Q : Assertion α) : P * Q = Q * P := by
  funext f
  apply propext
  constructor
  · rintro ⟨g, k, apart, rfl, left, right⟩
    exact ⟨k, g, apart.symm, join_comm apart.symm, right, left⟩
  · rintro ⟨g, k, apart, rfl, left, right⟩
    exact ⟨k, g, apart.symm, join_comm apart.symm, right, left⟩

protected theorem one_mul (P : Assertion α) : 1 * P = P := by
  funext f
  apply propext
  constructor
  · rintro ⟨_, k, _, rfl, rfl, holds⟩
    exact holds
  · exact fun holds => ⟨nothing, f, fun _ => .inl rfl, rfl, rfl, holds⟩

protected theorem mul_assoc (P Q R : Assertion α) : P * Q * R = P * (Q * R) := by
  funext f
  apply propext
  constructor
  · rintro ⟨_, k, apart, rfl, ⟨f, g, near, rfl, first, second⟩, third⟩
    obtain ⟨far, close⟩ := apart_join.mp apart
    have split : Apart f (join g k) := (apart_join.mpr ⟨near.symm, far.symm⟩).symm
    exact ⟨f, join g k, split, (join_assoc f g k).symm, first, g, k, close, rfl, second, third⟩
  · rintro ⟨f, _, apart, rfl, first, g, k, near, rfl, second, third⟩
    obtain ⟨close, far⟩ := apart_join.mp apart.symm
    have split : Apart (join f g) k := apart_join.mpr ⟨far.symm, near⟩
    exact ⟨join f g, k, split, join_assoc f g k, ⟨f, g, close.symm, rfl, first, second⟩, third⟩

instance : CommMonoid (Assertion α) where
  mul_assoc := Assertion.mul_assoc
  mul_comm := Assertion.mul_comm
  one_mul := Assertion.one_mul
  mul_one P := (Assertion.mul_comm P 1).trans (Assertion.one_mul P)

protected theorem mul_sSup (P : Assertion α) (S : Set (Assertion α)) : P * sSup S = ⨆ Q ∈ S, P * Q := by
  funext f
  apply propext
  simp only [iSup_holds]
  constructor
  · rintro ⟨g, k, apart, rfl, left, right⟩
    obtain ⟨Q, member, holds⟩ := sSup_holds.mp right
    exact ⟨Q, member, g, k, apart, rfl, left, holds⟩
  · rintro ⟨Q, member, g, k, apart, rfl, left, holds⟩
    exact ⟨g, k, apart, rfl, left, sSup_holds.mpr ⟨Q, member, holds⟩⟩

instance : IsQuantale (Assertion α) where
  mul_sSup_distrib := Assertion.mul_sSup
  sSup_mul_distrib S P := by
    rw [mul_comm, Assertion.mul_sSup]
    simp only [mul_comm]

protected theorem mul_iSup {ι : Sort*} (P : Assertion α) (Q : ι → Assertion α) :
    P * ⨆ i, Q i = ⨆ i, P * Q i := by
  rw [iSup, mul_sSup_distrib, iSup_range]

protected theorem iSup_mul {ι : Sort*} (P : ι → Assertion α) (Q : Assertion α) :
    (⨆ i, P i) * Q = ⨆ i, P i * Q := by
  rw [iSup, sSup_mul_distrib, iSup_range]

end Assertion

open Fragment

/-- One cell, and nothing else. -/
def cell (a : ℕ) (v : α) : Assertion α := fun f => f = Function.update nothing a (some v)

theorem cell_mul_holds {R : Assertion α} {f : Fragment α} : (cell a v * R) f ↔
    f a = some v ∧ R (Function.update f a none) := by
  constructor
  · rintro ⟨_, k, apart, rfl, rfl, rest⟩
    have absent : k a = none := (apart a).resolve_left (by simp)
    refine ⟨by simp [join], ?_⟩
    have same : Function.update (join (Function.update nothing a (some v)) k) a none = k := by
      funext b
      by_cases here : b = a
      · rw [here, Function.update_self, absent]
      · rw [Function.update_of_ne here, join, Function.update_of_ne here]
        rfl
    rwa [same]
  · rintro ⟨found, rest⟩
    refine ⟨_, _, fun b => ?_, ?_, rfl, rest⟩
    · by_cases here : b = a
      · exact .inr (by rw [here, Function.update_self])
      · exact .inl (by rw [Function.update_of_ne here]; rfl)
    · funext b
      by_cases here : b = a
      · simp [join, here, found]
      · simp [join, here, nothing]

/-! ### How much memory there is at least -/

/-- Whatever it holds of has so many cells. -/
def Sized (n : ℕ) (P : Assertion α) : Prop :=
  ∀ f, P f → ∃ s : Finset ℕ, n ≤ s.card ∧ ∀ a ∈ s, f a ≠ none

namespace Sized
variable {P Q : Assertion α}

theorem zero (P : Assertion α) : Sized 0 P := fun _ _ => ⟨∅, Nat.zero_le _, by simp⟩

theorem cell (a : ℕ) (v : α) : Sized 1 (Heap.cell a v) := by
  rintro _ rfl
  exact ⟨{a}, by simp, by simp⟩

theorem mul (first : Sized m P) (second : Sized n Q) : Sized (m + n) (P * Q) := by
  classical
  rintro _ ⟨f, g, apart, rfl, left, right⟩
  obtain ⟨s, many, inside⟩ := first f left
  obtain ⟨t, many', inside'⟩ := second g right
  have disjoint : Disjoint s t := by
    rw [Finset.disjoint_left]
    intro a member member'
    exact (apart a).elim (inside a member) (inside' a member')
  refine ⟨s ∪ t, ?_, fun a member => ?_⟩
  · rw [Finset.card_union_of_disjoint disjoint]
    exact Nat.add_le_add many many'
  · rcases Finset.mem_union.mp member with left | right
    · exact join_ne_none_left (inside a left)
    · exact join_ne_none_right (inside' a right)

theorem iSup {ι : Sort*} {P : ι → Assertion α} (each : ∀ i, Sized n (P i)) : Sized n (⨆ i, P i) := by
  intro f holds
  obtain ⟨i, holds⟩ := Assertion.iSup_holds.mp holds
  exact each i f holds

theorem mono (sized : Sized n P) (fewer : m ≤ n) : Sized m P := by
  intro f holds
  obtain ⟨s, many, inside⟩ := sized f holds
  exact ⟨s, fewer.trans many, inside⟩

/-- The addresses handed out so far are enough. -/
theorem le_next {h : Cells α} (sized : Sized n P) (holds : P h.cells) : n ≤ h.next := by
  obtain ⟨s, many, inside⟩ := sized _ holds
  have below : s ⊆ Finset.range h.next := by
    intro a member
    rw [Finset.mem_range]
    by_contra beyond
    exact inside a member (h.unused a (Nat.le_of_not_lt beyond))
  calc n ≤ s.card := many
    _ ≤ (Finset.range h.next).card := Finset.card_le_card below
    _ = h.next := Finset.card_range _

end Sized

/-! ### Linked lists -/

section
variable {ι : Type} (node : ℕ → ι → Option ℕ → Assertion α)

/-- A linked list from one pointer to another. A node at an address stands for an item and links to
the next pointer, with all it owns. -/
def chain : Option ℕ → List ι → Option ℕ → Assertion α
  | p, [], q => ⨆ _ : p = q, 1
  | p, x :: xs, q => ⨆ (a : ℕ) (n : Option ℕ) (_ : p = some a), node a x n * chain n xs q

variable {node}

theorem chain_self (p : Option ℕ) : chain node p [] p = 1 := iSup_pos rfl

theorem chain_some : chain node (some a) (x :: xs) q = ⨆ n, node a x n * chain node n xs q := by
  apply le_antisymm
  · refine iSup_le fun b => iSup_le fun n => iSup_le fun same => ?_
    obtain rfl := Option.some.inj same
    exact le_iSup (fun n => node a x n * chain node n xs q) n
  · exact iSup_le fun n => le_iSup_of_le a (le_iSup_of_le n (le_iSup_of_le rfl le_rfl))

theorem chain_none : chain node none (x :: xs) q = ⊥ := by
  refine le_bot_iff.mp (iSup_le fun a => iSup_le fun n => iSup_le fun same => ?_)
  exact absurd same (by simp)

theorem chain_append (p : Option ℕ) (xs ys : List ι) (q : Option ℕ) :
    chain node p (xs ++ ys) q = ⨆ m, chain node p xs m * chain node m ys q := by
  induction xs generalizing p with
  | nil =>
    apply le_antisymm
    · refine le_iSup_of_le p ?_
      rw [chain_self, one_mul]
      exact le_rfl
    · refine iSup_le fun m => ?_
      rw [chain, Assertion.iSup_mul]
      refine iSup_le fun same => ?_
      rw [one_mul, same]
      exact le_rfl
  | cons x xs ih =>
    cases p with
    | none =>
      rw [List.cons_append, chain_none]
      simp only [chain_none, Quantale.bot_mul, iSup_bot]
    | some a =>
      rw [List.cons_append, chain_some]
      simp only [ih, chain_some, Assertion.mul_iSup, Assertion.iSup_mul, mul_assoc]
      exact iSup_comm

theorem chain_single (p : Option ℕ) (x : ι) (q : Option ℕ) :
    chain node p [x] q = ⨆ (a : ℕ) (_ : p = some a), node a x q := by
  cases p with
  | none => simp [chain_none]
  | some a =>
    rw [chain_some]
    apply le_antisymm
    · refine iSup_le fun n => ?_
      rw [chain, Assertion.mul_iSup]
      refine iSup_le fun same => ?_
      rw [mul_one, same]
      exact le_iSup_of_le a (le_iSup_of_le rfl le_rfl)
    · refine iSup_le fun b => iSup_le fun same => ?_
      obtain rfl := Option.some.inj same
      refine le_iSup_of_le q ?_
      rw [chain_self, mul_one]

/-- The last node, and what leads to it. -/
theorem chain_concat (p : Option ℕ) (xs : List ι) (x : ι) (q : Option ℕ) :
    chain node p (xs ++ [x]) q = ⨆ a, chain node p xs (some a) * node a x q := by
  rw [chain_append]
  simp only [chain_single, Assertion.mul_iSup]
  rw [iSup_comm]
  refine iSup_congr fun a => ?_
  exact iSup_iSup_eq_left

theorem chain_sized (each : ∀ a x n, Sized 1 (node a x n)) (p : Option ℕ) (xs : List ι)
    (q : Option ℕ) : Sized xs.length (chain node p xs q) := by
  induction xs generalizing p with
  | nil => exact .zero _
  | cons x xs ih =>
    refine .iSup fun a => .iSup fun n => .iSup fun _ => ?_
    rw [List.length_cons, Nat.add_comm]
    exact (each a x n).mul (ih n)

end
end Carbond.Heap
