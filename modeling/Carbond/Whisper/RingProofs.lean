import Carbond.Ring.Window
import Carbond.Whisper.PointProofs

/-! An archive as a ring. In order, point writes refine the ring of slots, and so the archive
is a sliding window over the points received. -/
namespace Carbond.Whisper
open Bytes Posix

/-- An archive inside a file of less than 2 GiB, with slots and a resolution. -/
structure ArchiveInfo.Fits (archive : ArchiveInfo) : Prop where
  step : 0 < archive.secondsPerPoint.toNat
  slots : 0 < archive.points.toNat
  bound : archive.offset.toNat + 12 * archive.points.toNat < 2 ^ 31

/-- An archive whose offsets are 32-bit numbers, with slots and a resolution. -/
structure ArchiveInfo.Addressable (archive : ArchiveInfo) : Prop where
  step : 0 < archive.secondsPerPoint.toNat
  slots : 0 < archive.points.toNat
  bound : archive.offset.toNat + 12 * archive.points.toNat ≤ 2 ^ 32

variable {archive : ArchiveInfo}

namespace ArchiveInfo.Addressable

def shape (addressable : archive.Addressable) : Ring.Shape :=
  ⟨archive.secondsPerPoint.toNat, archive.points.toNat, addressable.step, addressable.slots⟩

theorem size (addressable : archive.Addressable) :
    (archive.points * 12).toNat = 12 * archive.points.toNat := by
  have := addressable.bound
  simp only [UInt32.toNat_mul, UInt32.reduceToNat]
  omega

theorem sized (addressable : archive.Addressable) : archive.points * 12 ≠ 0 := by
  intro zero
  have size := addressable.size
  have slots := addressable.slots
  rw [zero] at size
  simp only [UInt32.toNat_zero] at size
  omega

theorem step_ne_zero (addressable : archive.Addressable) : archive.secondsPerPoint ≠ 0 := by
  intro zero
  have := addressable.step
  simp [zero] at this

theorem archiveSize_eq (addressable : archive.Addressable) :
    (archiveSize archive).toNat = 12 * archive.points.toNat := by
  rw [archiveSize_toNat, addressable.size]

theorem archiveSize_ne_zero (addressable : archive.Addressable) : archiveSize archive ≠ 0 :=
  fun zero => addressable.sized (UInt32.toUInt64_inj.mp zero)

end ArchiveInfo.Addressable

namespace ArchiveInfo.Fits

theorem addressable (fits : archive.Fits) : archive.Addressable :=
  ⟨fits.step, fits.slots, by have := fits.bound; omega⟩

def shape (fits : archive.Fits) : Ring.Shape :=
  ⟨archive.secondsPerPoint.toNat, archive.points.toNat, fits.step, fits.slots⟩

theorem writable (fits : archive.Fits) : Writable archive first :=
  .inr ⟨fits.addressable.step_ne_zero, fits.addressable.archiveSize_ne_zero⟩

end ArchiveInfo.Fits

/-- The file position of a slot. -/
def slotPos (archive : ArchiveInfo) (i : ℕ) : ℕ := archive.offset.toNat + 12 * i

/-- A slot that holds timestamp 0 is empty. -/
def cells (c : List UInt8) (archive : ArchiveInfo) : Ring.Cells UInt64 := fun i =>
  let point := pointIn c (slotPos archive i)
  if i < archive.points.toNat ∧ point.timestamp ≠ 0 then some (point.timestamp.toNat, point.value)
  else none

theorem targetOffset_toNat (addressable : archive.Addressable) (used : first ≠ 0) :
    (targetOffset archive timestamp first).toNat = archive.offset.toNat +
      (timestamp - first).toNat / archive.secondsPerPoint.toNat * 12 % 2 ^ 32 %
        (12 * archive.points.toNat) := by
  rw [targetOffset_used _ _ used addressable.sized (by rw [addressable.size]; exact addressable.bound),
    addressable.size]

/-- The 32-bit product leads to the slot counted from slot 0, as it does unless it overflows. -/
def RightPlace (archive : ArchiveInfo) (timestamp first : UInt32) : Prop :=
  first = 0 ∨ (timestamp - first).toNat / archive.secondsPerPoint.toNat * 12 % 2 ^ 32 %
      (12 * archive.points.toNat) =
    (timestamp - first).toNat / archive.secondsPerPoint.toNat * 12 % (12 * archive.points.toNat)

instance (archive : ArchiveInfo) (timestamp first : UInt32) :
    Decidable (RightPlace archive timestamp first) := inferInstanceAs (Decidable (_ ∨ _))

theorem rightPlace_of_short (ahead : first.toNat ≤ timestamp.toNat)
    (short : (timestamp.toNat - first.toNat) / archive.secondsPerPoint.toNat * 12 < 2 ^ 32) :
    RightPlace archive timestamp first := by
  right
  rw [UInt32.toNat_sub_of_le _ _ (UInt32.le_iff_toNat_le.mpr ahead), Nat.mod_eq_of_lt short]

/-- A point that is not older than slot 0 goes to its own slot. -/
theorem targetOffset_right (addressable : archive.Addressable) (nonzero : first ≠ 0)
    (ahead : first.toNat ≤ timestamp.toNat) (right : RightPlace archive timestamp first) :
    (targetOffset archive timestamp first).toNat =
      slotPos archive (addressable.shape.slot first.toNat timestamp.toNat) := by
  have distance : (timestamp - first).toNat = timestamp.toNat - first.toNat :=
    UInt32.toNat_sub_of_le _ _ (UInt32.le_iff_toNat_le.mpr ahead)
  rw [targetOffset_toNat addressable nonzero, right.resolve_left nonzero, distance, Nat.mul_comm _ 12,
    Nat.mul_mod_mul_left]
  rfl

theorem targetOffset_ahead (fits : archive.Fits) (nonzero : first ≠ 0)
    (ahead : first.toNat ≤ timestamp.toNat)
    (short : (timestamp.toNat - first.toNat) / archive.secondsPerPoint.toNat * 12 < 2 ^ 32) :
    (targetOffset archive timestamp first).toNat =
      slotPos archive (fits.shape.slot first.toNat timestamp.toNat) :=
  targetOffset_right fits.addressable nonzero ahead (rightPlace_of_short ahead short)

/-- Writing a whole slot changes that slot and no other. -/
theorem cells_writeAt (within : slotPos archive archive.points.toNat ≤ c.length)
    (inside : i < archive.points.toNat) (timestamp : UInt32) (value : UInt64) :
    cells (writeAt c (slotPos archive i) (htonArchivePoint ⟨timestamp, value⟩).bytes) archive =
      Function.update (cells c archive) i
        (if timestamp = 0 then none else some (timestamp.toNat, value)) := by
  funext j
  by_cases same : j = i
  · subst same
    by_cases empty : timestamp = 0
    · simp [cells, pointIn_writeAt, empty]
    · simp [cells, pointIn_writeAt, inside, empty]
  · rw [Function.update_of_ne same]
    by_cases present : j < archive.points.toNat
    · have kept : pointIn (writeAt c (slotPos archive i)
          (htonArchivePoint ⟨timestamp, value⟩).bytes) (slotPos archive j) =
          pointIn c (slotPos archive j) := by
        apply pointIn_congr
        apply readAt_writeAt_disjoint
        · simp only [slotPos, whisperPointSize] at within ⊢
          omega
        · simp only [slotPos, whisperPointSize, ArchivePoint.bytes_length]
          omega
      simp only [cells, kept]
    · simp only [cells, present, false_and, if_false]

theorem slotPos_zero (archive : ArchiveInfo) : slotPos archive 0 = archive.offset.toNat := by
  simp [slotPos]

theorem cells_zero_free (empty : firstTimestamp c archive = 0) : cells c archive 0 = none := by
  have empty' : (pointIn c archive.offset.toNat).timestamp = 0 := empty
  simp [cells, slotPos_zero, empty']

theorem cells_zero_used (slots : 0 < archive.points.toNat) (used : firstTimestamp c archive ≠ 0) :
    cells c archive 0 =
      some ((firstTimestamp c archive).toNat, (pointIn c archive.offset.toNat).value) := by
  have used' : (pointIn c archive.offset.toNat).timestamp ≠ 0 := used
  simp [cells, slotPos_zero, slots, used', firstTimestamp]

theorem firstTimestamp_free (slots : 0 < archive.points.toNat) (free : cells c archive 0 = none) :
    firstTimestamp c archive = 0 := by
  by_contra used
  rw [cells_zero_used slots used] at free
  contradiction

/-- One point write refines one ring write. -/
theorem cells_writePoint (addressable : archive.Addressable)
    (within : slotPos archive archive.points.toNat ≤ c.length) (nonzero : timestamp ≠ 0)
    (ahead : (firstTimestamp c archive).toNat ≤ timestamp.toNat)
    (right : RightPlace archive timestamp (firstTimestamp c archive)) (value : UInt64) :
    cells (writePoint c archive timestamp (htonArchivePoint ⟨timestamp, value⟩)) archive =
      addressable.shape.write (cells c archive) timestamp.toNat value := by
  by_cases empty : firstTimestamp c archive = 0
  · rw [writePoint, empty, targetOffset_empty, ← slotPos_zero,
      cells_writeAt within addressable.slots, if_neg nonzero]
    simp only [Ring.Shape.write, cells_zero_free empty]
  · rw [writePoint, targetOffset_right addressable empty ahead right,
      cells_writeAt within Ring.Shape.slot_lt, if_neg nonzero]
    simp only [Ring.Shape.write, cells_zero_used addressable.slots empty]

/-- A point with timestamp 0 leaves an empty archive empty. -/
theorem cells_writePoint_zero (slots : 0 < archive.points.toNat)
    (within : slotPos archive archive.points.toNat ≤ c.length)
    (free : ∀ i, cells c archive i = none) (value : UInt64) (i : ℕ) :
    cells (writePoint c archive 0 (htonArchivePoint ⟨0, value⟩)) archive i = none := by
  rw [writePoint, firstTimestamp_free slots (free 0), targetOffset_empty, ← slotPos_zero,
    cells_writeAt within slots, if_pos rfl]
  by_cases zero : i = 0
  · rw [zero, Function.update_self]
  · rw [Function.update_of_ne zero, free]

end Carbond.Whisper
