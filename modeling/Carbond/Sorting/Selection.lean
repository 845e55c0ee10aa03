import Mathlib.Data.List.Sort

/-! Sorting by selection. Taking the first of the largest elements, again and again, gives the
elements in decreasing order, equal ones in the order of the list. -/
namespace Carbond.Sorting
variable {α κ : Type} [LinearOrder κ] {key : α → κ} {list before after : List α} {a b : α}

/-- The stable sort of a list, largest keys first. -/
def decreasing (key : α → κ) (list : List α) : List α :=
  list.insertionSort fun a b => key b ≤ key a

/-- No key before this one is as large, and none behind it is larger. -/
structure FirstLargest (key : α → κ) (before : List α) (a : α) (after : List α) : Prop where
  front : ∀ b ∈ before, key b < key a
  back : ∀ b ∈ after, key b ≤ key a

theorem decreasing_pairwise (key : α → κ) (list : List α) :
    (decreasing key list).Pairwise fun a b => key b ≤ key a := by
  have total : Std.Total fun a b : α => key b ≤ key a := ⟨fun a b => le_total (key b) (key a)⟩
  have transitive : IsTrans α fun a b => key b ≤ key a := ⟨fun _ _ _ le le' => le'.trans le⟩
  exact List.pairwise_insertionSort _ list

/-- The first of the largest comes first, and the others follow as if it were not there. -/
theorem decreasing_extract (largest : FirstLargest key before a after) :
    decreasing key (before ++ a :: after) = a :: decreasing key (before ++ after) := by
  induction before with
  | nil => exact List.insertionSort_cons_of_forall_rel _ largest.back
  | cons b rest ih =>
    have smaller := largest.front b List.mem_cons_self
    have sorted := ih ⟨fun c member => largest.front c (List.mem_cons_of_mem _ member), largest.back⟩
    rw [List.cons_append, decreasing, List.insertionSort_cons, ← decreasing, sorted]
    exact List.orderedInsert_of_not_le _ _ (not_le_of_gt smaller)

/-- In a sorted list, what is left out makes no difference to where an element goes. -/
theorem orderedInsert_filter {p : α → Prop} [DecidablePred p]
    (sorted : list.Pairwise fun a b => key b ≤ key a) (kept : p a) :
    (list.orderedInsert (fun a b => key b ≤ key a) a).filter p =
      (list.filter p).orderedInsert (fun a b => key b ≤ key a) a := by
  induction list with
  | nil => exact List.filter_cons_of_pos (decide_eq_true kept)
  | cons b rest ih =>
    obtain ⟨smaller, sorted⟩ := List.pairwise_cons.mp sorted
    by_cases here : key b ≤ key a
    · have first : ∀ c ∈ (b :: rest).filter p, key c ≤ key a := by
        intro c member
        rcases List.mem_cons.mp (List.mem_filter.mp member).1 with rfl | later
        · exact here
        · exact (smaller c later).trans here
      rw [List.orderedInsert_cons, if_pos here, List.filter_cons, if_pos (decide_eq_true kept)]
      cases left : (b :: rest).filter p with
      | nil => rfl
      | cons c others =>
        have next : key c ≤ key a := first c (left ▸ List.mem_cons_self)
        rw [List.orderedInsert_cons, if_pos next]
    · rw [List.orderedInsert_cons, if_neg here, List.filter_cons, List.filter_cons, ih sorted]
      split
      · rw [List.orderedInsert_cons, if_neg here]
      · rfl

theorem orderedInsert_dropped {p : α → Prop} [DecidablePred p] (dropped : ¬ p a) (list : List α) :
    (list.orderedInsert (fun a b => key b ≤ key a) a).filter p = list.filter p := by
  induction list with
  | nil => exact List.filter_cons_of_neg (by simpa using dropped)
  | cons b rest ih =>
    rw [List.orderedInsert_cons]
    split
    · exact List.filter_cons_of_neg (by simpa using dropped)
    · rw [List.filter_cons, List.filter_cons, ih]

/-- A part of the list is sorted as it stands in the sorted list. -/
theorem decreasing_filter (key : α → κ) (list : List α) (p : α → Prop) [DecidablePred p] :
    (decreasing key list).filter p = decreasing key (list.filter p) := by
  induction list with
  | nil => rfl
  | cons a rest ih =>
    rw [decreasing, List.insertionSort_cons, ← decreasing]
    by_cases kept : p a
    · rw [orderedInsert_filter (decreasing_pairwise key rest) kept, ih, List.filter_cons,
        if_pos (decide_eq_true kept)]
      rfl
    · rw [orderedInsert_dropped kept, ih, List.filter_cons, if_neg (by simpa using kept)]

end Carbond.Sorting
