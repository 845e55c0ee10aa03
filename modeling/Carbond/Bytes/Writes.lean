import Carbond.Bytes.Region
import Mathlib.Data.List.Perm.Basic

/-! Sequences of writes into ranges that do not overlap: their order does not matter. -/
namespace Carbond.Bytes

def writeAll (bytes : List UInt8) (writes : List (Nat × List UInt8)) : List UInt8 :=
  writes.foldl (fun bytes write => writeAt bytes write.1 write.2) bytes

/-- All writes are inside the contents. -/
def Inside (bytes : List UInt8) (writes : List (Nat × List UInt8)) : Prop :=
  ∀ write ∈ writes, write.1 + write.2.length ≤ bytes.length

/-- Two writes are the same write, or their ranges do not overlap. -/
def Apart (writes : List (Nat × List UInt8)) : Prop :=
  ∀ first ∈ writes, ∀ second ∈ writes, first ≠ second →
    first.1 + first.2.length ≤ second.1 ∨ second.1 + second.2.length ≤ first.1

theorem Inside.tail (inside : Inside bytes (write :: writes)) :
    Inside (writeAt bytes write.1 write.2) writes := by
  intro other member
  rw [writeAt_length_within (inside write List.mem_cons_self)]
  exact inside other (List.mem_cons_of_mem _ member)

/-- Frame rule for a sequence of writes. -/
theorem readAt_writeAll (inside : Inside bytes writes) (present : pos + count ≤ bytes.length)
    (disjoint : ∀ write ∈ writes, pos + count ≤ write.1 ∨ write.1 + write.2.length ≤ pos) :
    readAt (writeAll bytes writes) pos count = readAt bytes pos count := by
  induction writes generalizing bytes with
  | nil => rfl
  | cons write writes ih =>
    have kept := writeAt_length_within (inside write List.mem_cons_self)
    rw [writeAll, List.foldl_cons]
    exact (ih inside.tail (kept ▸ present)
      fun other member => disjoint other (List.mem_cons_of_mem _ member)).trans
        (readAt_writeAt_disjoint present (disjoint write List.mem_cons_self))

theorem writeAll_perm {writes writes' : List (Nat × List UInt8)} (same : writes.Perm writes')
    (inside : Inside bytes writes) (apart : Apart writes) :
    writeAll bytes writes = writeAll bytes writes' := by
  induction same generalizing bytes with
  | nil => rfl
  | cons write _ ih =>
    exact ih inside.tail fun first member second member' =>
      apart first (List.mem_cons_of_mem _ member) second (List.mem_cons_of_mem _ member')
  | swap first second rest =>
    simp only [writeAll, List.foldl_cons]
    by_cases equal : first = second
    · rw [equal]
    · rw [writeAt_comm (inside second (by simp)) (inside first (by simp))
        (apart second (by simp) first (by simp) (Ne.symm equal))]
  | trans left right ih ih' =>
    refine (ih inside apart).trans (ih' ?_ ?_)
    · intro write member
      exact inside write (left.mem_iff.mpr member)
    · intro first member second member'
      exact apart first (left.mem_iff.mpr member) second (left.mem_iff.mpr member')

end Carbond.Bytes
