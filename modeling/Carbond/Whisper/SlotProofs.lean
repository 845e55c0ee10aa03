import Carbond.Whisper.RunProofs
import Carbond.Whisper.TilingProofs

/-! Which point writes of a run touch whole slots of their own archive: those whose 32-bit product
does not wrap, or wraps a multiple of three times. -/
namespace Carbond.Whisper
open Bytes Posix Text
variable {w : World Globals} {ret : List Retention} {agg : PatternAggregation} {entry : PointWrite}

/-- A write of one slot of the archive it was given, and of nothing else. -/
structure WholeSlot (ret : List Retention) (entry : PointWrite) : Prop where
  behind : entry.archive.offset.toNat ≤ entry.writeOffset.toNat
  aligned : 12 ∣ entry.writeOffset.toNat - entry.archive.offset.toNat
  inside : entry.writeOffset.toNat - entry.archive.offset.toNat ≤
    (archiveSize entry.archive).toNat - 12
  headers : readAt entry.after 0 (16 + 12 * ret.length) = readAt entry.before 0 (16 + 12 * ret.length)
  others : ∀ j cur, ret[j]? = some cur → archiveOf ret j cur ≠ entry.archive →
    archiveBytes entry.after (archiveOf ret j cur) = archiveBytes entry.before (archiveOf ret j cur)
  neighbours : ∀ k < entry.archive.points.toNat,
    entry.archive.offset.toNat + 12 * k ≠ entry.writeOffset.toNat →
      readAt entry.after (entry.archive.offset.toNat + 12 * k) 12 =
        readAt entry.before (entry.archive.offset.toNat + 12 * k) 12
  length : entry.after.length = entry.before.length

/-- The distance from the point in slot 0, times the size of a point, exceeds 32 bits a multiple
of three times, zero included. -/
def WrapsByThree (archive : ArchiveInfo) (timestamp : UInt32) (before : List UInt8) : Prop :=
  firstTimestamp before archive = 0 ∨
    3 ∣ ((timestamp - firstTimestamp before archive) / archive.secondsPerPoint).toNat * 12 / 2 ^ 32

theorem dvd_remainder_iff (parts : 12 * m + 4 * wraps + rest = distance * 12) :
    12 ∣ rest ↔ 3 ∣ wraps := by
  omega

theorem aligned_iff (slots distance : ℕ) :
    12 ∣ distance * 12 % 2 ^ 32 % (12 * slots) ↔ 3 ∣ distance * 12 / 2 ^ 32 := by
  rw [Nat.dvd_mod_iff (Nat.dvd_mul_right 12 slots)]
  -- 2^32 leaves the remainder 4 when divided by 12.
  have split (wraps : ℕ) : 2 ^ 32 * wraps = 12 * (357913941 * wraps) + 4 * wraps := by
    omega
  have parts := Nat.div_add_mod (distance * 12) (2 ^ 32)
  rw [split] at parts
  exact dvd_remainder_iff parts

/-- Retentions with points, in a file below 2 GiB. -/
structure Small (ret : List Retention) : Prop where
  positive : ∀ cur ∈ ret, cur.timePerPoint ≠ 0
  points : ∀ cur ∈ ret, 0 < pointsStored cur
  fits : 16 + 12 * ret.length + 12 * (ret.map pointsStored).sum < 2 ^ 31

theorem Small.size (small : Small ret) (member : cur ∈ ret) :
    (pointCount cur * 12).toNat = 12 * pointsStored cur := by
  have single : pointsStored cur ≤ (ret.map pointsStored).sum :=
    List.single_le_sum (fun _ _ => Nat.zero_le _) _ (List.mem_map_of_mem member)
  have fits := small.fits
  exact size_toNat cur (by omega)

theorem Small.sized (small : Small ret) : Sized ret := by
  intro cur member zero
  have size := small.size member
  have points := small.points cur member
  rw [zero, UInt32.toNat_zero] at size
  omega

theorem Small.laid (small : Small ret) : Laid ret := by
  have fits := small.fits
  have room : 16 + 12 * ret.length + emptySize ret < 2 ^ 31 := by
    rw [emptySize_eq (by omega)]
    exact fits
  refine ⟨small.positive, fun i _ => ?_, by omega⟩
  have part := emptySize_take_le ret i
  omega

/-- Different archives of a file lie apart. -/
theorem archives_apart (laid : Laid ret) (found : ret[i]? = some cur) (other : ret[j]? = some cur')
    (different : j ≠ i) :
    (archiveOf ret i cur).offset.toNat + (pointCount cur * 12).toNat ≤
      (archiveOf ret j cur').offset.toNat ∨
    (archiveOf ret j cur').offset.toNat + (pointCount cur' * 12).toNat ≤
      (archiveOf ret i cur).offset.toNat := by
  obtain ⟨start, stop⟩ := laid.archive_offset found
  obtain ⟨start', stop'⟩ := laid.archive_offset other
  rcases Nat.lt_or_gt_of_ne different with before | behind
  · have := emptySize_take_mono ret (show j + 1 ≤ i from before)
    omega
  · have := emptySize_take_mono ret (show i + 1 ≤ j from behind)
    omega

/-- A write at a whole slot keeps everything else. -/
theorem Written.wholeSlot (written : Written ret agg entry) (small : Small ret)
    (found : ret[i]? = some cur) (same : entry.archive = archiveOf ret i cur)
    (slot : entry.writeOffset.toNat = entry.archive.offset.toNat + 12 * k)
    (inside : k < pointsStored cur) : WholeSlot ret entry := by
  have member := List.mem_of_getElem? found
  have size := small.size member
  obtain ⟨start, stop⟩ := small.laid.archive_offset found
  have long := written.before.long
  have part := emptySize_take_le ret (i + 1)
  have bytes : entry.point.bytes.length = 12 := ArchivePoint.bytes_length _
  have points : entry.archive.points.toNat = pointsStored cur := by
    rw [same, archiveOf_points, pointCount_toNat]
  have total : (archiveSize entry.archive).toNat = 12 * pointsStored cur := by
    rw [archiveSize_toNat, same, archiveOf_points, size]
  rw [same] at slot
  constructor
  · rw [same]
    omega
  · rw [same, slot, Nat.add_sub_cancel_left]
    exact Nat.dvd_mul_right _ _
  · rw [total, same]
    omega
  · rw [written.after]
    exact readAt_writeAt_disjoint (by omega) (by omega)
  · intro j cur' other different
    have apart := archives_apart small.laid found other (by
      rintro rfl
      obtain rfl := Option.some.inj (found.symm.trans other)
      exact different same.symm)
    have size' := small.size (List.mem_of_getElem? other)
    have stop' := (small.laid.archive_offset other).2
    have part' := emptySize_take_le ret (j + 1)
    rw [written.after, archiveBytes, archiveBytes, archiveOf_points, pointCount_toNat]
    exact readAt_writeAt_disjoint (by omega) (by omega)
  · intro k' inside' elsewhere
    rw [written.after]
    rw [same] at inside' elsewhere ⊢
    rw [same] at points
    exact readAt_writeAt_disjoint (by omega) (by omega)
  · rw [written.after, writeAt_length_within (by omega)]

/-- A write of a run touches one whole slot exactly if its product wraps by three. -/
theorem Written.wholeSlot_iff (written : Written ret agg entry) (small : Small ret) :
    WholeSlot ret entry ↔ WrapsByThree entry.archive entry.timestamp entry.before := by
  obtain ⟨i, cur, found, same⟩ := written.archive
  have member := List.mem_of_getElem? found
  have size := small.size member
  have points := small.points cur member
  have room := small.laid.archive_room found
  have sized := small.sized cur member
  have target := written.target
  by_cases empty : firstTimestamp entry.before entry.archive = 0
  · have here : entry.writeOffset.toNat = entry.archive.offset.toNat + 12 * 0 := by
      rw [target, empty, targetOffset_empty]
      rfl
    exact ⟨fun _ => .inl empty, fun _ => written.wholeSlot small found same here points⟩
  · have offset := targetOffset_used entry.archive entry.timestamp empty
      (by rw [same]; exact sized) (by rw [same]; exact room)
    rw [← target] at offset
    have total : (entry.archive.points * 12).toNat = 12 * pointsStored cur := by
      rw [same, archiveOf_points, size]
    rw [total, ← UInt32.toNat_div] at offset
    have exact_iff := aligned_iff (pointsStored cur)
      ((entry.timestamp - firstTimestamp entry.before entry.archive) /
        entry.archive.secondsPerPoint).toNat
    constructor
    · intro whole
      have aligned := whole.aligned
      rw [offset, Nat.add_sub_cancel_left] at aligned
      exact .inr (exact_iff.mp aligned)
    · intro wraps
      obtain ⟨k, slot⟩ := exact_iff.mpr (wraps.resolve_left empty)
      have bound := Nat.mod_lt (((entry.timestamp - firstTimestamp entry.before entry.archive) /
        entry.archive.secondsPerPoint).toNat * 12 % 2 ^ 32)
        (show 0 < 12 * pointsStored cur by omega)
      rw [slot] at offset bound
      exact written.wholeSlot small found same offset (by omega)

/-- Every write so far was in an archive as configured, and touched one whole slot of it exactly
if its product wraps by three. -/
def SlotsAsWrapped (ret : List Retention) (w : World Globals) : Prop :=
  ∀ entry ∈ w.globals.writes, (∃ i cur, ret[i]? = some cur ∧ entry.archive = archiveOf ret i cur) ∧
    (WholeSlot ret entry ↔ WrapsByThree entry.archive entry.timestamp entry.before)

end Carbond.Whisper
