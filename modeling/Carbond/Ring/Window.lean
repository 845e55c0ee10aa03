import Mathlib.Data.Nat.ModEq
import Mathlib.Tactic.Ring
import Mathlib.Tactic.Linarith

/-! A ring of slots indexed by time, as a sliding window over a log. The ring keeps no origin:
it counts from whatever point slot 0 holds, so the origin moves each time the ring wraps. -/
namespace Carbond.Ring
variable {V : Type}

/-- A ring of `slots` slots, one for each `step` of time. -/
structure Shape where
  step : ℕ
  slots : ℕ
  step_pos : 0 < step
  slots_pos : 0 < slots

namespace Shape

/-- The time after which a slot is used again. -/
def span (shape : Shape) : ℕ := shape.slots * shape.step

/-- The slot of a time, counted from a base. -/
def slot (shape : Shape) (base time : ℕ) : ℕ := (time - base) / shape.step % shape.slots

variable {shape : Shape}

theorem span_pos : 0 < shape.span := Nat.mul_pos shape.slots_pos shape.step_pos

theorem slot_lt : shape.slot base time < shape.slots := Nat.mod_lt _ shape.slots_pos

@[simp] theorem slot_self : shape.slot base base = 0 := by simp [slot]

/-- Two aligned times share a slot exactly if they are a whole number of spans apart. -/
theorem slot_eq_iff (early : base ≤ time) (early' : base ≤ other)
    (aligned : shape.step ∣ time - base) (aligned' : shape.step ∣ other - base) :
    shape.slot base time = shape.slot base other ↔ time ≡ other [MOD shape.span] := by
  obtain ⟨i, count⟩ := aligned
  obtain ⟨j, count'⟩ := aligned'
  have hi : (time - base) / shape.step = i := by
    rw [count, Nat.mul_div_cancel_left _ shape.step_pos]
  have hj : (other - base) / shape.step = j := by
    rw [count', Nat.mul_div_cancel_left _ shape.step_pos]
  have time_eq : time = base + shape.step * i := by omega
  have other_eq : other = base + shape.step * j := by omega
  rw [slot, slot, hi, hj, time_eq, other_eq, span, Nat.mul_comm shape.slots]
  constructor
  · intro same
    exact Nat.ModEq.add_left _ (Nat.ModEq.mul_left' _ same)
  · intro same
    exact Nat.ModEq.mul_left_cancel' shape.step_pos.ne' (Nat.ModEq.add_left_cancel' _ same)

theorem slot_eq_zero_iff (shape : Shape) (aligned : shape.step ∣ time - base) :
    shape.slot base time = 0 ↔ shape.span ∣ time - base := by
  obtain ⟨i, count⟩ := aligned
  rw [slot, count, Nat.mul_div_cancel_left _ shape.step_pos, span, Nat.mul_comm shape.slots,
    Nat.mul_dvd_mul_iff_left shape.step_pos, Nat.dvd_iff_mod_eq_zero]

/-- Less than a span apart, different times have different slots. -/
theorem slot_ne (shape : Shape) (early : base ≤ time) (early' : base ≤ other)
    (aligned : shape.step ∣ time - base) (aligned' : shape.step ∣ other - base)
    (before : time < other) (near : other < time + shape.span) :
    shape.slot base time ≠ shape.slot base other := by
  rw [Ne, slot_eq_iff early early' aligned aligned']
  intro same
  have apart := (Nat.modEq_iff_dvd' before.le).mp same
  have := Nat.le_of_dvd (by omega) apart
  omega

/-- Counting from a later time in slot 0 gives the same slots. -/
theorem slot_rebase (zero : shape.slot first base = 0) (aligned : shape.step ∣ base - first)
    (early : first ≤ base) (late : base ≤ time) : shape.slot base time = shape.slot first time := by
  obtain ⟨i, count⟩ := aligned
  have index : (base - first) / shape.step = i := by
    rw [count, Nat.mul_div_cancel_left _ shape.step_pos]
  rw [slot, index] at zero
  obtain ⟨k, wraps⟩ := Nat.dvd_of_mod_eq_zero zero
  have apart : time - first = time - base + shape.step * (shape.slots * k) := by
    rw [← wraps, ← count]
    omega
  rw [slot, slot, apart, Nat.add_mul_div_left _ _ shape.step_pos, Nat.add_mul_mod_self_left]

/-- So many steps later, so many slots further. -/
theorem slot_later (shape : Shape) (early : base ≤ time) (aligned : shape.step ∣ time - base)
    (i : ℕ) : shape.slot base (time + i * shape.step) = (shape.slot base time + i) % shape.slots := by
  obtain ⟨k, count⟩ := aligned
  have later : time + i * shape.step - base = shape.step * (k + i) := by
    rw [Nat.mul_add, Nat.mul_comm i]
    omega
  rw [slot, slot, later, count, Nat.mul_div_cancel_left _ shape.step_pos,
    Nat.mul_div_cancel_left _ shape.step_pos, Nat.mod_add_mod]

end Shape

/-- What the slots hold: a time and a value, or nothing. -/
abbrev Cells (V : Type) := ℕ → Option (ℕ × V)

/-- One write: slot 0 if it is free, else the slot counted from the time there. -/
def Shape.write (shape : Shape) (cells : Cells V) (time : ℕ) (value : V) : Cells V :=
  match cells 0 with
  | none => Function.update cells 0 (some (time, value))
  | some (base, _) => Function.update cells (shape.slot base time) (some (time, value))

/-- The value of the last entry of the log with this time. -/
def latest : List (ℕ × V) → ℕ → Option V
  | [], _ => none
  | (logged, value) :: rest, time =>
    match latest rest time with
    | some later => some later
    | none => if logged = time then some value else none

theorem latest_append (log : List (ℕ × V)) (logged : ℕ) (value : V) (time : ℕ) :
    latest (log ++ [(logged, value)]) time =
      if logged = time then some value else latest log time := by
  induction log with
  | nil => simp [latest]
  | cons entry rest ih =>
    by_cases same : logged = time
    · rw [if_pos same] at ih ⊢
      simp [latest, ih]
    · rw [if_neg same] at ih ⊢
      simp [latest, ih]

theorem latest_mem {log : List (ℕ × V)} (found : latest log time = some value) :
    (time, value) ∈ log := by
  induction log with
  | nil => simp [latest] at found
  | cons entry rest ih =>
    obtain ⟨logged, stored⟩ := entry
    simp only [latest] at found
    cases later : latest rest time with
    | some other =>
      rw [later] at found
      exact List.mem_cons_of_mem _ (ih (later.trans found))
    | none =>
      simp only [later] at found
      split at found
      · obtain rfl := Option.some.inj found
        simp [*]
      · contradiction

theorem latest_absent {log : List (ℕ × V)} (absent : ∀ entry ∈ log, entry.1 ≠ time) :
    latest log time = none := by
  cases found : latest log time with
  | none => rfl
  | some value => exact absurd rfl (absent (time, value) (latest_mem found))

theorem latest_split {later : List (ℕ × V)} (absent : ∀ entry ∈ later, entry.1 ≠ time) :
    latest (earlier ++ (time, value) :: later) time = some value := by
  induction earlier with
  | nil => simp [latest, latest_absent absent]
  | cons entry rest ih => simp [latest, ih]

/-- The ring represents the log from its first to its last time: every slot in use holds an
entry of the log at its place, and the entries less than a span old are all there. -/
structure Represents (shape : Shape) (first last : ℕ) (log : List (ℕ × V)) (cells : Cells V) :
    Prop where
  used : ∃ base value, cells 0 = some (base, value)
  bounded : ∀ time value, (time, value) ∈ log → first ≤ time ∧ time ≤ last ∧ shape.step ∣ time - first
  placed : ∀ i time value, cells i = some (time, value) →
    (time, value) ∈ log ∧ shape.slot first time = i
  current : ∀ time value, latest log time = some value → last < time + shape.span →
    cells (shape.slot first time) = some (time, value)

namespace Represents
variable {shape : Shape} {log : List (ℕ × V)} {cells : Cells V}

/-- A write into an empty ring. -/
theorem start (shape : Shape) (free : ∀ i, cells i = none) (time : ℕ) (value : V) :
    Represents shape time time [(time, value)] (shape.write cells time value) := by
  have result : shape.write cells time value = Function.update cells 0 (some (time, value)) := by
    simp only [Shape.write, free]
  rw [result]
  refine ⟨⟨time, value, by simp⟩, ?_, ?_, ?_⟩
  · intro logged stored member
    obtain ⟨rfl, rfl⟩ := Prod.mk.inj (List.mem_singleton.mp member)
    simp
  · intro i logged stored found
    by_cases zero : i = 0
    · subst zero
      simp only [Function.update_self, Option.some.injEq, Prod.mk.injEq] at found
      obtain ⟨rfl, rfl⟩ := found
      simp
    · rw [Function.update_of_ne zero, free] at found
      contradiction
  · intro logged stored found _
    obtain ⟨rfl, rfl⟩ := Prod.mk.inj (List.mem_singleton.mp (latest_mem found))
    simp

/-- The write of a later time, after any number of wraps. The base is an entry of the log in
slot 0, so it is a whole number of spans after the first time. -/
theorem write_eq (holds : Represents shape first last log cells) (late : last ≤ time) (value : V) :
    shape.write cells time value =
      Function.update cells (shape.slot first time) (some (time, value)) := by
  obtain ⟨base, stored, found⟩ := holds.used
  obtain ⟨member, zero⟩ := holds.placed 0 base stored found
  obtain ⟨early, before, aligned⟩ := holds.bounded base stored member
  simp only [Shape.write, found]
  rw [Shape.slot_rebase zero aligned early (by omega)]

theorem write (holds : Represents shape first last log cells) (late : last ≤ time)
    (aligned : shape.step ∣ time - first) (value : V) :
    Represents shape first time (log ++ [(time, value)]) (shape.write cells time value) := by
  obtain ⟨base, stored, found⟩ := holds.used
  have ordered : first ≤ last := by
    have := holds.bounded base stored (holds.placed 0 base stored found).1
    omega
  rw [holds.write_eq late]
  refine ⟨?_, ?_, ?_, ?_⟩
  · by_cases zero : shape.slot first time = 0
    · exact ⟨time, value, by simp [zero]⟩
    · exact ⟨base, stored, by rw [Function.update_of_ne (Ne.symm zero), found]⟩
  · intro logged value' member
    rcases List.mem_append.mp member with old | new
    · have := holds.bounded logged value' old
      exact ⟨this.1, by omega, this.2.2⟩
    · obtain ⟨rfl, rfl⟩ := Prod.mk.inj (List.mem_singleton.mp new)
      exact ⟨by omega, le_rfl, aligned⟩
  · intro i logged value' stored'
    by_cases here : i = shape.slot first time
    · subst here
      simp only [Function.update_self, Option.some.injEq, Prod.mk.injEq] at stored'
      obtain ⟨rfl, rfl⟩ := stored'
      simp
    · rw [Function.update_of_ne here] at stored'
      obtain ⟨member, place⟩ := holds.placed i logged value' stored'
      exact ⟨List.mem_append_left _ member, place⟩
  · intro logged value' newest near
    rw [latest_append] at newest
    split at newest
    · rename_i same
      subst same
      simp [Option.some.inj newest]
    · rename_i other
      have old := holds.bounded logged value' (latest_mem newest)
      have elsewhere : shape.slot first logged ≠ shape.slot first time :=
        shape.slot_ne old.1 (by omega) old.2.2 aligned (by omega) near
      rw [Function.update_of_ne elsewhere]
      exact holds.current logged value' newest (by omega)

end Represents
end Carbond.Ring
