import Carbond.Bytes.Image
import Carbond.Bytes.Region
import Mathlib.Data.List.GetD

/-! Contents that agree below a bound, where bytes that are missing count as zero. A write behind
the bound keeps the agreement, also where it fills a gap. -/
namespace Carbond.Bytes
variable {before after bytes data : List UInt8} {bound pos count : Nat}

def SameBelow (bound : Nat) (before after : List UInt8) : Prop :=
  ∀ i < bound, after.getD i 0 = before.getD i 0

namespace SameBelow

theorem refl (bound : Nat) (bytes : List UInt8) : SameBelow bound bytes bytes := fun _ _ => rfl

theorem trans (first : SameBelow bound before bytes) (second : SameBelow bound bytes after) :
    SameBelow bound before after := fun i below => (second i below).trans (first i below)

theorem writeAt (bytes data : List UInt8) (behind : bound ≤ pos) :
    SameBelow bound bytes (writeAt bytes pos data) := by
  intro i below
  by_cases empty : data = []
  · rw [empty, writeAt_nil]
  · rw [List.getD_eq_getElem?_getD, List.getD_eq_getElem?_getD, writeAt_getElem? bytes pos empty,
      if_pos (by omega)]
    split
    case isTrue => rfl
    case isFalse past => rw [List.getElem?_eq_none (Nat.le_of_not_lt past)]; rfl

end SameBelow

theorem number_readAt_succ (bytes : List UInt8) (pos count : Nat) :
    number (readAt bytes pos (count + 1)) =
      (bytes.getD pos 0).toNat + 256 * number (readAt bytes (pos + 1) count) := by
  by_cases present : pos < bytes.length
  · rw [readAt, List.drop_eq_getElem_cons present, List.take_succ_cons, number,
      List.getD_eq_getElem _ _ present, readAt]
  · rw [readAt_past (by omega), readAt_past (by omega), List.getD_eq_default _ _ (by omega)]
    rfl

/-- The numbers read below the bound are the same. -/
theorem SameBelow.number_readAt (same : SameBelow bound before after) (within : pos + count ≤ bound) :
    number (readAt after pos count) = number (readAt before pos count) := by
  induction count generalizing pos with
  | zero => simp [readAt]
  | succ count ih =>
    rw [number_readAt_succ, number_readAt_succ, same pos (by omega), ih (by omega)]

end Carbond.Bytes
