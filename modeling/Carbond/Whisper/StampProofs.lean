import Carbond.Transition.Runs
import Carbond.Whisper.MisreadProofs

/-! The timestamps in the slots of an archive. Where all points go to whole slots they do not
depend on the values, and neither does it whether a bucket is found complete. -/
namespace Carbond.Whisper
open Bytes Posix
variable {w : World Globals} {higher lower archive : ArchiveInfo} {stamps : ℕ → UInt32}

/-- The place of a point in the archive, in 32 bits, next to this first timestamp. -/
def placeOfPoint (archive : ArchiveInfo) (timestamp first : UInt32) : ℕ :=
  if first = 0 then 0
  else (timestamp - first).toNat / archive.secondsPerPoint.toNat * 12 % 2 ^ 32 %
    (12 * archive.points.toNat)

/-- What a point written to a whole slot does to the timestamps of the slots. -/
def writeStamp (archive : ArchiveInfo) (stamps : ℕ → UInt32) (timestamp : UInt32) : ℕ → UInt32 :=
  Function.update stamps (placeOfPoint archive timestamp (stamps 0) / 12) timestamp

/-- The timestamps in an archive that was empty. -/
def stampsOf (archive : ArchiveInfo) (timestamps : List UInt32) : ℕ → UInt32 :=
  timestamps.foldl (writeStamp archive) fun _ => 0

/-- The slots hold these timestamps. -/
def Stamped (c : List UInt8) (archive : ArchiveInfo) (stamps : ℕ → UInt32) : Prop :=
  ∀ i < archive.points.toNat, (pointIn c (slotPos archive i)).timestamp = stamps i

/-- The interval for the point at `timestamp` starts at a slot and shows every timestamp of its
bucket. -/
def Complete (higher lower : ArchiveInfo) (timestamp : UInt32) (stamps : ℕ → UInt32) : Prop :=
  ∃ start, placeOfStart higher lower timestamp (stamps 0) = 12 * start ∧
    ∀ j < (nbHigherPoints higher lower).toNat,
      (start + j < higher.points.toNat ∨ 12 * (start + j + 1 - higher.points.toNat) ≤
        readAgain higher (start + (nbHigherPoints higher lower).toNat)) ∧
      stamps ((start + j) % higher.points.toNat) = bucketTime higher lower timestamp j

/-! ### Writing -/

/-- A point that follows one with its own timestamp finds it in its place. -/
theorem writeStamp_again (archive : ArchiveInfo) (stamps : ℕ → UInt32) (timestamp : UInt32) :
    writeStamp archive (writeStamp archive stamps timestamp) timestamp =
      writeStamp archive stamps timestamp := by
  have place : placeOfPoint archive timestamp (writeStamp archive stamps timestamp 0) / 12 =
      placeOfPoint archive timestamp (stamps 0) / 12 := by
    by_cases zero : placeOfPoint archive timestamp (stamps 0) / 12 = 0
    · -- Slot 0 now holds the timestamp itself.
      have here : writeStamp archive stamps timestamp 0 = timestamp := by
        rw [writeStamp, zero, Function.update_self]
      rw [here, zero, placeOfPoint]
      split
      · rfl
      · rw [UInt32.sub_self, UInt32.toNat_zero, Nat.zero_div, Nat.zero_mul, Nat.zero_mod,
          Nat.zero_mod, Nat.zero_div]
    · rw [show writeStamp archive stamps timestamp 0 = stamps 0 from
        Function.update_of_ne (Ne.symm zero) _ _]
  rw [writeStamp, place, writeStamp, Function.update_idem]

theorem stampsOf_append (archive : ArchiveInfo) (timestamps : List UInt32) (timestamp : UInt32) :
    stampsOf archive (timestamps ++ [timestamp]) =
      writeStamp archive (stampsOf archive timestamps) timestamp := by
  rw [stampsOf, List.foldl_append]
  rfl

/-- Every slot in use holds one of the timestamps. -/
theorem stampsOf_mem (archive : ArchiveInfo) (timestamps : List UInt32) (i : ℕ) :
    stampsOf archive timestamps i = 0 ∨ stampsOf archive timestamps i ∈ timestamps := by
  induction timestamps using List.reverseRecOn with
  | nil => exact .inl rfl
  | append_singleton earlier timestamp ih =>
    rw [stampsOf_append, writeStamp]
    by_cases here : i = placeOfPoint archive timestamp (stampsOf archive earlier 0) / 12
    · right
      rw [here, Function.update_self]
      exact List.mem_append_right _ (List.mem_singleton_self _)
    · rw [Function.update_of_ne here]
      exact ih.imp_right fun old => List.mem_append_left _ old

/-- Which timestamps came, in time order, decides what the slots hold. -/
theorem stampsOf_congr (ordered : timestamps.Pairwise fun a b => a.toNat ≤ b.toNat)
    (ordered' : timestamps'.Pairwise fun a b => a.toNat ≤ b.toNat)
    (same : ∀ a, a ∈ timestamps ↔ a ∈ timestamps') (archive : ArchiveInfo) :
    stampsOf archive timestamps = stampsOf archive timestamps' := by
  apply Transition.foldl_eq_of_mem_iff _ _ ordered ordered' same
  · intro a b before after
    exact UInt32.toNat_inj.mp (Nat.le_antisymm before after)
  · exact writeStamp_again archive

theorem targetOffset_placeOfPoint (addressable : archive.Addressable) (timestamp first : UInt32) :
    (targetOffset archive timestamp first).toNat =
      archive.offset.toNat + placeOfPoint archive timestamp first := by
  rw [placeOfPoint]
  by_cases empty : first = 0
  · rw [if_pos empty, empty, targetOffset_empty, Nat.add_zero]
  · rw [if_neg empty, targetOffset_toNat addressable empty]

theorem placeOfPoint_lt (slots : 0 < archive.points.toNat) (timestamp first : UInt32) :
    placeOfPoint archive timestamp first < 12 * archive.points.toNat := by
  rw [placeOfPoint]
  split
  · omega
  · exact Nat.mod_lt _ (by omega)

namespace Stamped

theorem first (stamped : Stamped c archive stamps) (slots : 0 < archive.points.toNat) :
    firstTimestamp c archive = stamps 0 := by
  rw [firstTimestamp, ← slotPos_zero]
  exact stamped 0 slots

theorem congr (stamped : Stamped c archive stamps)
    (same : archiveBytes c' archive = archiveBytes c archive) : Stamped c' archive stamps := by
  intro i inside
  rw [pointIn_archiveBytes same inside]
  exact stamped i inside

end Stamped

/-- One point written to a whole slot. -/
theorem pointIn_writePoint (addressable : archive.Addressable)
    (within : slotPos archive archive.points.toNat ≤ c.length)
    (whole : 12 ∣ placeOfPoint archive timestamp (firstTimestamp c archive)) (value : UInt64)
    (present : i < archive.points.toNat) :
    pointIn (writePoint c archive timestamp (htonArchivePoint ⟨timestamp, value⟩))
        (slotPos archive i) =
      if i = placeOfPoint archive timestamp (firstTimestamp c archive) / 12 then ⟨timestamp, value⟩
      else pointIn c (slotPos archive i) := by
  have inside := placeOfPoint_lt addressable.slots timestamp (firstTimestamp c archive)
  have target := targetOffset_placeOfPoint addressable timestamp (firstTimestamp c archive)
  obtain ⟨k, place⟩ := whole
  rw [place] at inside target
  rw [writePoint, target, place, Nat.mul_div_cancel_left k (by decide)]
  split
  case isTrue here =>
    rw [here]
    exact pointIn_writeAt _ _ _
  case isFalse elsewhere =>
    apply pointIn_congr
    simp only [slotPos] at within ⊢
    apply readAt_writeAt_disjoint
    · rw [whisperPointSize]
      omega
    · rw [whisperPointSize, ArchivePoint.bytes_length]
      omega

theorem Stamped.writePoint (addressable : archive.Addressable)
    (within : slotPos archive archive.points.toNat ≤ c.length) (stamped : Stamped c archive stamps)
    (whole : 12 ∣ placeOfPoint archive timestamp (stamps 0)) (value : UInt64) :
    Stamped (writePoint c archive timestamp (htonArchivePoint ⟨timestamp, value⟩)) archive
      (writeStamp archive stamps timestamp) := by
  rw [← stamped.first addressable.slots] at whole
  intro i present
  rw [pointIn_writePoint addressable within whole value present, stamped.first addressable.slots,
    writeStamp, Function.update_apply]
  split
  · rfl
  · exact stamped i present

namespace Unmistakable

theorem congr (clear : Unmistakable c archive timestamp)
    (same : archiveBytes c' archive = archiveBytes c archive) : Unmistakable c' archive timestamp := by
  intro i inside
  rw [pointIn_archiveBytes same inside]
  exact clear i inside

theorem writePoint (addressable : archive.Addressable)
    (within : slotPos archive archive.points.toNat ≤ c.length)
    (clear : Unmistakable c archive timestamp)
    (whole : 12 ∣ placeOfPoint archive t (firstTimestamp c archive))
    (other : ¬ Mistakable timestamp value) :
    Unmistakable (writePoint c archive t (htonArchivePoint ⟨t, value⟩)) archive timestamp := by
  intro i present
  rw [pointIn_writePoint addressable within whole value present]
  split
  · exact other
  · exact clear i present

end Unmistakable

/-! ### Reading -/

/-- An interval that starts at a slot is found complete if it shows every timestamp of the bucket. -/
theorem Stamped.collect_aligned_iff [Platform] (stamped : Stamped c higher stamps)
    (fits : higher.Fits) (bucket : IsBucket higher lower timestamp count)
    (opened : Opened w fd path c pos) (within : slotPos higher higher.points.toNat ≤ c.length)
    (place : placeOfStart higher lower timestamp (stamps 0) = 12 * start)
    (run : Yields (collect (some fd) timestamp higher lower) w (nb, known) w') :
    known.length = count ↔ ∀ j < count, (start + j < higher.points.toNat ∨
        12 * (start + j + 1 - higher.points.toNat) ≤ readAgain higher (start + count)) ∧
      stamps ((start + j) % higher.points.toNat) = bucketTime higher lower timestamp j := by
  have first := stamped.first fits.slots
  have bound := fits.bound
  have most := bucket.most
  have some := bucket.some
  have low := start_lt_points fits.addressable place
  have count_eq := bucket.count_eq
  obtain ⟨rdBuf, w₁, run', buffered, _, _⟩ := collect_yields fits.addressable opened within
    (by rw [count_eq]; exact some) (by rw [count_eq]; exact most) (by rw [first]; exact place)
    ⟨by rw [slotPos]; omega, .inr (by omega)⟩
  obtain ⟨same, _⟩ := run.unique run'
  obtain ⟨_, rfl⟩ := Prod.mk.inj same
  rw [count_eq] at buffered
  have all := List.filterMap_length_eq_length (f := matching rdBuf higher lower timestamp)
    (l := List.range count)
  rw [List.length_range] at all
  rw [count_eq, all]
  constructor
  · intro found j inside
    have matched := found j (List.mem_range.mpr inside)
    have here : (pointIn rdBuf (12 * j)).timestamp = bucketTime higher lower timestamp j := by
      by_contra other
      rw [matching, bucket.expected_eq inside, if_neg other] at matched
      contradiction
    rcases buffered.shown_or_blank fits low most inside with ⟨shown, covers⟩ | blank
    · refine ⟨covers.imp_right fun asked => by omega, ?_⟩
      rw [← here, shown]
      exact (stamped _ (Nat.mod_lt _ fits.slots)).symm
    · rw [blank] at here
      exact absurd here.symm (bucket.bucketTime_ne_zero inside)
  · intro complete j member
    have inside := List.mem_range.mp member
    obtain ⟨covers, here⟩ := complete j inside
    have shown : pointIn rdBuf (12 * j) =
        pointIn c (slotPos higher ((start + j) % higher.points.toNat)) := by
      by_cases front : start + j < higher.points.toNat
      · rw [Nat.mod_eq_of_lt front]
        exact buffered.front j inside front
      · have wrapped : (start + j) % higher.points.toNat = start + j - higher.points.toNat := by
          rw [Nat.mod_eq_sub_mod (Nat.le_of_not_lt front), Nat.mod_eq_of_lt (by omega)]
        rw [wrapped]
        exact buffered.again j inside (Nat.le_of_not_lt front) (by omega)
    rw [matching, shown, bucket.expected_eq inside, stamped _ (Nat.mod_lt _ fits.slots), here,
      if_pos rfl]
    rfl

/-- A bucket is found complete if its interval shows all of it. -/
theorem Stamped.collect_complete_iff [Platform] (stamped : Stamped c higher stamps)
    (fits : higher.Fits) (bucket : IsBucket higher lower timestamp count)
    (opened : Opened w fd path c pos) (within : slotPos higher higher.points.toNat ≤ c.length)
    (words : 4 ∣ higher.offset.toNat) (clear : 12 ∣ placeOfStart higher lower timestamp (stamps 0) ∨
      Unmistakable c higher timestamp)
    (run : Yields (collect (some fd) timestamp higher lower) w (nb, known) w') :
    known.length = count ↔ Complete higher lower timestamp stamps := by
  rw [Complete, bucket.count_eq]
  by_cases aligned : 12 ∣ placeOfStart higher lower timestamp (stamps 0)
  · obtain ⟨start, place⟩ := aligned
    rw [stamped.collect_aligned_iff fits bucket opened within place run]
    constructor
    · intro shown
      exact ⟨start, place, shown⟩
    · rintro ⟨start', place', shown⟩
      obtain rfl : start = start' := by omega
      exact shown
  · constructor
    · intro all
      rw [← stamped.first fits.slots] at aligned
      have misread := (clear.resolve_left (by rwa [← stamped.first fits.slots])).collect fits bucket
        opened within words aligned run
      exact absurd all misread
    · rintro ⟨start, place, _⟩
      exact absurd ⟨start, place⟩ aligned

/-- A bucket is only found complete if all its timestamps came. -/
theorem Complete.arrived (bucket : IsBucket higher lower timestamp count)
    (complete : Complete higher lower timestamp (stampsOf higher timestamps)) (inside : j < count) :
    bucketTime higher lower timestamp j ∈ timestamps := by
  obtain ⟨start, _, shown⟩ := complete
  rw [← bucket.count_eq] at inside
  have here := (shown j inside).2
  rw [← here]
  refine (stampsOf_mem higher timestamps _).resolve_left fun zero => ?_
  rw [bucket.count_eq] at inside
  exact bucket.bucketTime_ne_zero inside (here.symm.trans zero)

end Carbond.Whisper
