import Carbond.Whisper.BufferProofs
import Carbond.Whisper.Layout
import Carbond.Whisper.WindowProofs

/-! When the values collected for a bucket are those the higher archive holds of it. -/
namespace Carbond.Whisper
open Bytes Posix
variable {w : World Globals} {higher lower archive : ArchiveInfo}

/-- The value of the point with this timestamp, if the archive holds one. -/
def heldValue (c : List UInt8) (archive : ArchiveInfo) (timestamp : UInt32) : Option UInt64 :=
  ((List.range archive.points.toNat).find? fun i =>
    (pointIn c (slotPos archive i)).timestamp = timestamp).map fun i =>
      (pointIn c (slotPos archive i)).value

/-- The timestamps of the bucket that ends at `timestamp`, in order. -/
def bucketTime (higher lower : ArchiveInfo) (timestamp : UInt32) (j : ℕ) : UInt32 :=
  UInt32.ofNat (timestamp.toNat - lower.secondsPerPoint.toNat + (j + 1) * higher.secondsPerPoint.toNat)

def heldValues (c : List UInt8) (higher lower : ArchiveInfo) (timestamp : UInt32) : List UInt64 :=
  (List.range (nbHigherPoints higher lower).toNat).filterMap fun j =>
    heldValue c higher (bucketTime higher lower timestamp j)

/-- The loop collects the values the higher archive holds of the bucket, and the reads before it
stay inside the buffer. -/
def CollectsBucket [Platform] (w : World Globals) (fd : ℕ) (c : List UInt8)
    (higher lower : ArchiveInfo) (timestamp : UInt32) : Prop :=
  ∃ w', Yields (collect (some fd) timestamp higher lower) w
      (nbHigherPoints higher lower, heldValues c higher lower timestamp) w' ∧
    w'.globals.overrun = w.globals.overrun

/-- The interval computed starts as many slots before that of `timestamp` as the bucket is long,
all of it is read, and nothing is read beyond the end of the buffer. -/
structure BucketRead (higher lower : ArchiveInfo) (timestamp first : UInt32) (start count : ℕ) :
    Prop where
  place : placeOfStart higher lower timestamp first = 12 * start
  right : (start + (count - 1)) % higher.points.toNat =
    (timestamp.toNat - first.toNat) / higher.secondsPerPoint.toNat % higher.points.toNat
  seekable : Seekable higher start count
  covers : start + count ≤ higher.points.toNat ∨
    12 * (start + count - higher.points.toNat) ≤ readAgain higher (start + count)
  fits : readAgain higher (start + count) ≤ 12 * start

/-! ### Held values -/

/-- If a timestamp can only be in one slot, its value is looked up there. -/
theorem heldValue_eq (inside : i < archive.points.toNat)
    (only : ∀ k < archive.points.toNat,
      (pointIn c (slotPos archive k)).timestamp = timestamp → k = i) :
    heldValue c archive timestamp = if (pointIn c (slotPos archive i)).timestamp = timestamp then
      some (pointIn c (slotPos archive i)).value else none := by
  cases found : (List.range archive.points.toNat).find? fun i =>
      (pointIn c (slotPos archive i)).timestamp = timestamp with
  | none =>
    have absent := List.find?_eq_none.mp found i (List.mem_range.mpr inside)
    rw [heldValue, found, if_neg (by simpa using absent), Option.map_none]
  | some k =>
    have here : (pointIn c (slotPos archive k)).timestamp = timestamp := by
      simpa using List.find?_some found
    obtain rfl := only k (List.mem_range.mp (List.mem_of_find?_eq_some found)) here
    rw [heldValue, found, if_pos here, Option.map_some]

/-- Two lookups of which the first finds no more than the second. -/
theorem filterMap_below {f g : α → Option β} {l : List α}
    (below : ∀ a ∈ l, f a = none ∨ f a = g a) :
    (l.filterMap f).length ≤ (l.filterMap g).length ∧
      ((l.filterMap f).length = (l.filterMap g).length → ∀ a ∈ l, f a = g a) := by
  induction l with
  | nil => exact ⟨Nat.le_refl _, fun _ => nofun⟩
  | cons a rest ih =>
    obtain ⟨fewer, equal⟩ := ih fun b member => below b (List.mem_cons_of_mem _ member)
    rcases below a List.mem_cons_self with missing | same
    · rw [List.filterMap_cons_none missing]
      cases found : g a with
      | none =>
        rw [List.filterMap_cons_none found]
        refine ⟨fewer, fun length b member => ?_⟩
        rcases List.mem_cons.mp member with rfl | later
        · rw [missing, found]
        · exact equal length b later
      | some value =>
        rw [List.filterMap_cons_some found, List.length_cons]
        exact ⟨by omega, fun length => by omega⟩
    · cases found : g a with
      | none =>
        rw [List.filterMap_cons_none found, List.filterMap_cons_none (same.trans found)]
        refine ⟨fewer, fun length b member => ?_⟩
        rcases List.mem_cons.mp member with rfl | later
        · exact same
        · exact equal length b later
      | some value =>
        rw [List.filterMap_cons_some found, List.filterMap_cons_some (same.trans found),
          List.length_cons, List.length_cons]
        refine ⟨by omega, fun length b member => ?_⟩
        rcases List.mem_cons.mp member with rfl | later
        · exact same
        · exact equal (by omega) b later

/-! ### The timestamps of a bucket -/

/-- A bucket of `count` points of the higher archive that ends at `timestamp`. -/
structure IsBucket (higher lower : ArchiveInfo) (timestamp : UInt32) (count : ℕ) : Prop where
  step : 0 < higher.secondsPerPoint.toNat
  multiple : lower.secondsPerPoint.toNat = count * higher.secondsPerPoint.toNat
  some : 1 ≤ count
  most : count ≤ higher.points.toNat
  nonzero : timestamp ≠ 0
  aligned : lower.secondsPerPoint.toNat ∣ timestamp.toNat

namespace IsBucket

theorem count_eq (bucket : IsBucket higher lower timestamp count) :
    (nbHigherPoints higher lower).toNat = count := by
  rw [nbHigherPoints, UInt32.toNat_div, bucket.multiple, Nat.mul_div_cancel _ bucket.step]

theorem le (bucket : IsBucket higher lower timestamp count) :
    lower.secondsPerPoint.toNat ≤ timestamp.toNat :=
  Nat.le_of_dvd (Nat.pos_of_ne_zero fun zero => bucket.nonzero (UInt32.toNat_inj.mp zero))
    bucket.aligned

theorem later (bucket : IsBucket higher lower timestamp count) (inside : j < count) :
    timestamp.toNat = timestamp.toNat - lower.secondsPerPoint.toNat +
      (j + 1) * higher.secondsPerPoint.toNat + (count - 1 - j) * higher.secondsPerPoint.toNat := by
  have le := bucket.le
  have parts : (j + 1) * higher.secondsPerPoint.toNat +
      (count - 1 - j) * higher.secondsPerPoint.toNat = lower.secondsPerPoint.toNat := by
    rw [← Nat.add_mul, bucket.multiple]
    congr 1
    omega
  omega

theorem bucketTime_toNat (bucket : IsBucket higher lower timestamp count) (inside : j < count) :
    (bucketTime higher lower timestamp j).toNat = timestamp.toNat - lower.secondsPerPoint.toNat +
      (j + 1) * higher.secondsPerPoint.toNat := by
  have later := bucket.later inside
  have small := timestamp.toNat_lt
  rw [bucketTime, UInt32.toNat_ofNat', Nat.mod_eq_of_lt (by omega)]

/-- The point of the bucket lies so many steps before its end. -/
theorem time_later (bucket : IsBucket higher lower timestamp count) (inside : j < count) :
    timestamp.toNat = (bucketTime higher lower timestamp j).toNat +
      (count - 1 - j) * higher.secondsPerPoint.toNat := by
  rw [bucket.bucketTime_toNat inside]
  exact bucket.later inside

theorem bucketTime_ne_zero (bucket : IsBucket higher lower timestamp count) (inside : j < count) :
    bucketTime higher lower timestamp j ≠ 0 := by
  intro zero
  have time := bucket.bucketTime_toNat inside
  have positive := Nat.mul_pos (show 0 < j + 1 by omega) bucket.step
  rw [zero, UInt32.toNat_zero] at time
  omega

theorem bucketTime_last (bucket : IsBucket higher lower timestamp count) :
    bucketTime higher lower timestamp (count - 1) = timestamp := by
  have some := bucket.some
  have last := bucket.time_later (show count - 1 < count by omega)
  rw [Nat.sub_self, Nat.zero_mul, Nat.add_zero] at last
  exact UInt32.toNat_inj.mp last.symm

/-- The source counts to the same timestamps in 32 bits. -/
theorem expected_eq (bucket : IsBucket higher lower timestamp count) (inside : j < count) :
    expected higher lower timestamp j = bucketTime higher lower timestamp j := by
  have later := bucket.later inside
  have small := timestamp.toNat_lt
  have le := bucket.le
  rw [Nat.add_mul, Nat.one_mul] at later
  have product : (UInt32.ofNat j * higher.secondsPerPoint).toNat =
      j * higher.secondsPerPoint.toNat := by
    have most := bucket.most
    have bound := higher.points.toNat_lt
    rw [UInt32.toNat_mul, UInt32.toNat_ofNat', Nat.mod_eq_of_lt (by omega : j < 2 ^ 32),
      Nat.mod_eq_of_lt (by omega)]
  have start : (whisperHigherArchiveTimestampStart timestamp higher lower).toNat =
      timestamp.toNat - lower.secondsPerPoint.toNat + higher.secondsPerPoint.toNat := by
    rw [whisperHigherArchiveTimestampStart, UInt32.toNat_add,
      UInt32.toNat_sub_of_le _ _ (UInt32.le_iff_toNat_le.mpr le), Nat.mod_eq_of_lt (by omega)]
  apply UInt32.toNat_inj.mp
  rw [bucket.bucketTime_toNat inside, expected, UInt32.toNat_add, product, start,
    Nat.mod_eq_of_lt (by omega), Nat.add_mul, Nat.one_mul]
  omega

end IsBucket

/-! ### Slots of a bucket -/

theorem cells_of_timestamp (inside : k < archive.points.toNat) (used : timestamp ≠ 0)
    (here : (pointIn c (slotPos archive k)).timestamp = timestamp) :
    cells c archive k = some (timestamp.toNat, (pointIn c (slotPos archive k)).value) := by
  simp [cells, inside, here, used]

/-- Less than a round apart, slots that are equally far behind are the same. -/
theorem eq_of_add_mod {k slots m : ℕ} (low : k < slots) (i : ℕ)
    (same : (k + i) % slots = (m + i) % slots) : k = m % slots := by
  have equal : k ≡ m [MOD slots] := Nat.ModEq.add_right_cancel' i same
  rw [← Nat.mod_eq_of_lt low]
  exact equal

/-- Where the archive represents a log, a timestamp of the bucket can only be in one slot, counted
from the start of an interval in the right place. -/
theorem bucket_slot (addressable : higher.Addressable)
    (bucket : IsBucket higher lower timestamp count)
    (holds : Ring.Represents addressable.shape first timestamp.toNat log (cells c higher))
    (right : (start + (count - 1)) % higher.points.toNat =
      addressable.shape.slot first timestamp.toNat)
    (inside : j < count) (within : k < higher.points.toNat)
    (here : (pointIn c (slotPos higher k)).timestamp = bucketTime higher lower timestamp j) :
    k = (start + j) % higher.points.toNat := by
  have found := cells_of_timestamp within (bucket.bucketTime_ne_zero inside) here
  obtain ⟨logged, slot⟩ := holds.placed k _ _ found
  obtain ⟨early, _, aligned⟩ := holds.bounded _ _ logged
  have later := addressable.shape.slot_later early aligned (count - 1 - j)
  have time := bucket.time_later inside
  change timestamp.toNat = _ + (count - 1 - j) * addressable.shape.step at time
  rw [← time, slot, ← right] at later
  change _ = (k + (count - 1 - j)) % higher.points.toNat at later
  apply eq_of_add_mod within (count - 1 - j)
  rw [← later]
  congr 1
  omega

/-! ### Archives written in order -/

/-- The archive is as it was left by points written in time order into an empty one, each to its
own slot, the last of them at `timestamp`. -/
structure WrittenInOrder (archive : ArchiveInfo) (c₀ : List UInt8) (calls : List (UInt32 × UInt64))
    (timestamp : UInt32) (c : List UInt8) : Prop where
  zeros : readAt c₀ archive.offset.toNat (12 * archive.points.toNat) =
    List.replicate (12 * archive.points.toNat) 0
  contents : archiveBytes c archive = archiveBytes (writePoints archive c₀ calls) archive
  ends : ∃ value, calls.getLast? = some (timestamp, value)
  aligned : ∀ call ∈ calls, archive.secondsPerPoint.toNat ∣ call.1.toNat
  ordered : calls.Pairwise fun a b => a.1.toNat ≤ b.1.toNat
  placed : Placed archive c₀ calls

theorem pointIn_archiveBytes (same : archiveBytes c' archive = archiveBytes c archive)
    (inside : i < archive.points.toNat) :
    pointIn c' (slotPos archive i) = pointIn c (slotPos archive i) := by
  apply pointIn_congr
  have part : 12 * i + whisperPointSize ≤ 12 * archive.points.toNat := by
    rw [whisperPointSize]
    omega
  rw [slotPos, ← readAt_readAt c _ part, ← readAt_readAt c' _ part]
  exact congrArg (fun bytes => readAt bytes (12 * i) whisperPointSize) same

theorem cells_congr (same : archiveBytes c archive = archiveBytes c' archive) :
    cells c archive = cells c' archive := by
  funext i
  by_cases inside : i < archive.points.toNat
  · simp only [cells, pointIn_archiveBytes same inside]
  · simp only [cells, inside, false_and, if_false]

namespace WrittenInOrder

theorem within (written : WrittenInOrder archive c₀ calls timestamp c)
    (slots : 0 < archive.points.toNat) : slotPos archive archive.points.toNat ≤ c.length := by
  have long := within_of_zeros slots written.zeros
  have grown := writePoints_length long calls
  have sized := congrArg List.length written.contents
  rw [archiveBytes, archiveBytes, readAt_length, readAt_length] at sized
  rw [slotPos] at grown ⊢
  omega

theorem represents (written : WrittenInOrder archive c₀ calls timestamp c)
    (addressable : archive.Addressable) (used : timestamp ≠ 0) :
    ∃ first log value, Ring.Represents addressable.shape first timestamp.toNat log (cells c archive) ∧
      Ring.latest log timestamp.toNat = some value := by
  obtain ⟨value, ends⟩ := written.ends
  obtain ⟨first, _, holds⟩ := represents_calls addressable
    (within_of_zeros addressable.slots written.zeros) (cells_zeros written.zeros) ends used
    written.aligned written.ordered written.placed
  rw [← cells_congr written.contents] at holds
  refine ⟨first, _, value, holds, ?_⟩
  obtain ⟨earlier, rfl⟩ := List.getLast?_eq_some_iff.mp ends
  rw [List.filter_append, List.filter_cons_of_pos (by simpa using used), List.filter_nil, logOf,
    List.map_append]
  rw [List.map_cons, List.map_nil, Ring.latest_append, if_pos rfl]

end WrittenInOrder

/-- Counted from the timestamp in slot 0, slots are the same as from the first one. -/
theorem slot_firstTimestamp (addressable : archive.Addressable)
    (holds : Ring.Represents addressable.shape first last log (cells c archive)) :
    (last - (firstTimestamp c archive).toNat) / archive.secondsPerPoint.toNat %
      archive.points.toNat = addressable.shape.slot first last := by
  obtain ⟨base, value, used⟩ := holds.used
  have nonzero : firstTimestamp c archive ≠ 0 := by
    intro empty
    rw [cells_zero_free empty] at used
    contradiction
  have found := cells_zero_used addressable.slots nonzero
  obtain ⟨logged, zero⟩ := holds.placed _ _ _ found
  obtain ⟨early, late, aligned⟩ := holds.bounded _ _ logged
  exact Ring.Shape.slot_rebase zero aligned early late

/-! ### Shown points -/

/-- The buffer shows a slot of the archive or nothing, and which one decides over the match. -/
theorem matching_eq (addressable : higher.Addressable)
    (bucket : IsBucket higher lower timestamp count)
    (holds : Ring.Represents addressable.shape first timestamp.toNat log (cells c higher))
    (right : (start + (count - 1)) % higher.points.toNat =
      addressable.shape.slot first timestamp.toNat) (inside : j < count)
    (shown : pointIn rdBuf (12 * j) = pointIn c (slotPos higher ((start + j) % higher.points.toNat))) :
    matching rdBuf higher lower timestamp j =
      heldValue c higher (bucketTime higher lower timestamp j) := by
  rw [heldValue_eq (Nat.mod_lt _ addressable.slots) fun k within here =>
    bucket_slot addressable bucket holds right inside within here]
  simp only [matching, shown, bucket.expected_eq inside]

/-- Everything of the interval is shown if it is read. -/
theorem Buffered.shown (buffered : Buffered higher c start count rdBuf)
    (low : start < higher.points.toNat) (most : count ≤ higher.points.toNat)
    (covers : start + count ≤ higher.points.toNat ∨
      12 * (start + count - higher.points.toNat) ≤ readAgain higher (start + count))
    (inside : j < count) :
    pointIn rdBuf (12 * j) = pointIn c (slotPos higher ((start + j) % higher.points.toNat)) := by
  by_cases front : start + j < higher.points.toNat
  · rw [Nat.mod_eq_of_lt front]
    exact buffered.front j inside front
  · have wrapped : (start + j) % higher.points.toNat = start + j - higher.points.toNat := by
      rw [Nat.mod_eq_sub_mod (Nat.le_of_not_lt front), Nat.mod_eq_of_lt (by omega)]
    rw [wrapped]
    exact buffered.again j inside (Nat.le_of_not_lt front) (by omega)

/-- A bucket read in the right place is collected as it is held. -/
theorem BucketRead.collects [Platform] (addressable : higher.Addressable)
    (bucket : IsBucket higher lower timestamp count) (opened : Opened w fd path c pos)
    (written : WrittenInOrder higher c₀ calls timestamp c)
    (read : BucketRead higher lower timestamp (firstTimestamp c higher) start count) :
    CollectsBucket w fd c higher lower timestamp := by
  obtain ⟨first, log, value, holds, _⟩ := written.represents addressable bucket.nonzero
  have within := written.within addressable.slots
  have low := start_lt_points addressable read.place
  have count_eq := bucket.count_eq
  obtain ⟨rdBuf, w', run, buffered, _, flag⟩ := collect_yields addressable opened within
    (by rw [count_eq]; exact bucket.some) (by rw [count_eq]; exact bucket.most) read.place
    (by rw [count_eq]; exact read.seekable)
  rw [count_eq] at buffered flag
  refine ⟨w', ?_, ?_⟩
  · have same : heldValues c higher lower timestamp =
        (List.range (nbHigherPoints higher lower).toNat).filterMap
          (matching rdBuf higher lower timestamp) := by
      apply List.filterMap_congr
      intro j member
      have inside : j < count := count_eq ▸ List.mem_range.mp member
      exact (matching_eq addressable bucket holds
        (read.right.trans (slot_firstTimestamp addressable holds)) inside
        (buffered.shown low bucket.most read.covers inside)).symm
    rw [same]
    exact run
  · rw [flag, decide_eq_false (Nat.not_lt.mpr read.fits), Bool.or_false]

/-! ### Buckets that are not read in the right place -/

/-- Below 2 GiB, whole slots are asked for again. -/
theorem dvd_readAgain (fits : archive.Fits) (inside : stop ≤ 2 * archive.points.toNat) :
    12 ∣ readAgain archive stop := by
  have bound := fits.bound
  have slots := fits.slots
  rw [readAgain, slotPos, Nat.mod_eq_of_lt (by omega : archive.offset.toNat + 12 * stop < 2 ^ 32)]
  have parts := Nat.div_add_mod (archive.offset.toNat + 12 * stop) (12 * archive.points.toNat)
  rw [Nat.mul_assoc] at parts
  omega

/-- A point of the buffer is shown or blank. -/
theorem Buffered.shown_or_blank (fits : higher.Fits) (buffered : Buffered higher c start count rdBuf)
    (low : start < higher.points.toNat) (most : count ≤ higher.points.toNat) (inside : j < count) :
    pointIn rdBuf (12 * j) = pointIn c (slotPos higher ((start + j) % higher.points.toNat)) ∧
        (start + j < higher.points.toNat ∨
          12 * (start + j + 1 - higher.points.toNat) ≤ readAgain higher (start + count)) ∨
      pointIn rdBuf (12 * j) = ⟨0, 0⟩ := by
  by_cases front : start + j < higher.points.toNat
  · left
    refine ⟨?_, .inl front⟩
    rw [Nat.mod_eq_of_lt front]
    exact buffered.front j inside front
  · have behind := Nat.le_of_not_lt front
    have whole := dvd_readAgain fits (show start + count ≤ 2 * higher.points.toNat by omega)
    have wrapped : (start + j) % higher.points.toNat = start + j - higher.points.toNat := by
      rw [Nat.mod_eq_sub_mod behind, Nat.mod_eq_of_lt (by omega)]
    by_cases asked : 12 * (start + j + 1 - higher.points.toNat) ≤ readAgain higher (start + count)
    · left
      refine ⟨?_, .inr asked⟩
      rw [wrapped]
      exact buffered.again j inside behind asked
    · right
      exact buffered.blank j inside behind (by omega)

/-- A timestamp is in one slot at most. -/
theorem slot_of_timestamp (addressable : archive.Addressable)
    (holds : Ring.Represents addressable.shape first last log (cells c archive))
    (used : timestamp ≠ 0) (within : k < archive.points.toNat)
    (here : (pointIn c (slotPos archive k)).timestamp = timestamp) :
    k = addressable.shape.slot first timestamp.toNat :=
  (holds.placed k _ _ (cells_of_timestamp within used here)).2.symm

/-- What matches in the buffer is held. -/
theorem matching_below (fits : higher.Fits) (bucket : IsBucket higher lower timestamp count)
    (holds : Ring.Represents fits.addressable.shape first last log (cells c higher))
    (buffered : Buffered higher c start count rdBuf) (low : start < higher.points.toNat)
    (inside : j < count) : matching rdBuf higher lower timestamp j = none ∨
      matching rdBuf higher lower timestamp j =
        heldValue c higher (bucketTime higher lower timestamp j) := by
  have used := bucket.bucketTime_ne_zero inside
  rcases buffered.shown_or_blank fits low bucket.most inside with ⟨shown, _⟩ | blank
  · have within := Nat.mod_lt (start + j) fits.slots
    by_cases here : (pointIn c (slotPos higher ((start + j) % higher.points.toNat))).timestamp =
        bucketTime higher lower timestamp j
    · right
      rw [heldValue_eq within fun k inside' here' =>
        (slot_of_timestamp fits.addressable holds used inside' here').trans
          (slot_of_timestamp fits.addressable holds used within here).symm]
      simp only [matching, shown, bucket.expected_eq inside]
    · left
      rw [matching, shown, bucket.expected_eq inside]
      exact if_neg here
  · left
    rw [matching, blank, bucket.expected_eq inside]
    exact if_neg used.symm

/-- The last point written is held. -/
theorem heldValue_last (addressable : archive.Addressable) (used : timestamp ≠ 0)
    (holds : Ring.Represents addressable.shape first timestamp.toNat log (cells c archive))
    (newest : Ring.latest log timestamp.toNat = some value) :
    heldValue c archive timestamp = some value := by
  have found := holds.current _ _ newest (Nat.lt_add_of_pos_right Ring.Shape.span_pos)
  have point := slot_of_cells found
  have within : addressable.shape.slot first timestamp.toNat < archive.points.toNat :=
    Ring.Shape.slot_lt
  rw [heldValue_eq within fun k inside here => slot_of_timestamp addressable holds used inside here,
    point, if_pos rfl]

/-- In an archive below 2 GiB, a bucket is only collected as it is held when it is read in the right
place. -/
theorem BucketRead.of_collects [Platform] (fits : higher.Fits)
    (bucket : IsBucket higher lower timestamp count) (opened : Opened w fd path c pos)
    (written : WrittenInOrder higher c₀ calls timestamp c) (clean : w.globals.overrun = false)
    (aligned : 12 ∣ placeOfStart higher lower timestamp (firstTimestamp c higher))
    (collects : CollectsBucket w fd c higher lower timestamp) :
    ∃ start, BucketRead higher lower timestamp (firstTimestamp c higher) start count := by
  obtain ⟨start, place⟩ := aligned
  obtain ⟨first, log, value, holds, newest⟩ := written.represents fits.addressable bucket.nonzero
  have bound := fits.bound
  have slots := fits.slots
  have low := start_lt_points fits.addressable place
  have seekable : Seekable higher start count := by
    constructor
    · rw [slotPos]
      omega
    · right
      omega
  have count_eq := bucket.count_eq
  obtain ⟨rdBuf, w₁, run, buffered, _, flag⟩ := collect_yields fits.addressable opened
    (written.within slots) (by rw [count_eq]; exact bucket.some) (by rw [count_eq]; exact bucket.most)
    place (by rw [count_eq]; exact seekable)
  rw [count_eq] at buffered flag
  obtain ⟨w₂, run', flag'⟩ := collects
  obtain ⟨same, rfl⟩ := run.unique run'
  -- The point at `timestamp` is held, and so it is matched.
  have pointwise := (filterMap_below fun j member => matching_below fits bucket holds buffered low
    (count_eq ▸ List.mem_range.mp member)).2 (congrArg (fun found => found.2.length) same)
  have some := bucket.some
  have last := pointwise (count - 1) (List.mem_range.mpr (by omega))
  rw [bucket.bucketTime_last, heldValue_last fits.addressable bucket.nonzero holds newest] at last
  have expects := bucket.expected_eq (show count - 1 < count by omega)
  rw [bucket.bucketTime_last] at expects
  rw [matching, expects] at last
  rcases buffered.shown_or_blank fits low bucket.most (show count - 1 < count by omega) with
    ⟨shown, covers⟩ | blank
  · rw [shown] at last
    have here : (pointIn c (slotPos higher ((start + (count - 1)) % higher.points.toNat))).timestamp =
        timestamp := by
      by_contra other
      rw [if_neg other] at last
      contradiction
    refine ⟨start, place, ?_, seekable, ?_, ?_⟩
    · rw [slot_firstTimestamp fits.addressable holds]
      exact slot_of_timestamp fits.addressable holds bucket.nonzero (Nat.mod_lt _ slots) here
    · rcases covers with front | asked
      · left
        omega
      · right
        omega
    · rw [flag'] at flag
      rw [clean, Bool.false_or] at flag
      exact Nat.not_lt.mp (of_decide_eq_false flag.symm)
  · rw [blank, if_neg bucket.nonzero.symm] at last
    contradiction

/-- The values collected for a bucket are those that the higher archive holds of it if the interval
is read in the right place, and, where it starts at a slot of an archive below 2 GiB, only then. -/
theorem collectsBucket_of_bucketRead [Platform] (addressable : higher.Addressable)
    (bucket : IsBucket higher lower timestamp count) (opened : Opened w fd path c pos)
    (written : WrittenInOrder higher c₀ calls timestamp c) :
    (∀ start, BucketRead higher lower timestamp (firstTimestamp c higher) start count →
      CollectsBucket w fd c higher lower timestamp) ∧
    (higher.Fits → w.globals.overrun = false →
      12 ∣ placeOfStart higher lower timestamp (firstTimestamp c higher) →
      CollectsBucket w fd c higher lower timestamp →
      ∃ start, BucketRead higher lower timestamp (firstTimestamp c higher) start count) :=
  ⟨fun _ read => read.collects addressable bucket opened written,
    fun fits clean aligned collects =>
      BucketRead.of_collects fits bucket opened written clean aligned collects⟩

/-- Two points of a bucket in the slots 2 and 3. -/
theorem collectsBucket_of_bucketRead_witness :
    @CollectsBucket matchesAll (worldWith [] (writePoints ⟨40, 1, 10⟩ (twoArchives 0)
        [(1, 5), (3, 6), (4, 7)])) 0 (writePoints ⟨40, 1, 10⟩ (twoArchives 0)
        [(1, 5), (3, 6), (4, 7)]) ⟨40, 1, 10⟩ ⟨160, 2, 10⟩ 4 := by
  have addressable : ArchiveInfo.Addressable ⟨40, 1, 10⟩ := ⟨by decide, by decide, by decide⟩
  have bucket : IsBucket ⟨40, 1, 10⟩ ⟨160, 2, 10⟩ 4 2 :=
    ⟨by decide, by decide, by decide, by decide, by decide, by decide⟩
  have written : WrittenInOrder ⟨40, 1, 10⟩ (twoArchives 0) [(1, 5), (3, 6), (4, 7)] 4
      (writePoints ⟨40, 1, 10⟩ (twoArchives 0) [(1, 5), (3, 6), (4, 7)]) :=
    ⟨by decide +kernel, rfl, ⟨7, rfl⟩, by decide, by decide, by decide +kernel⟩
  have read : BucketRead ⟨40, 1, 10⟩ ⟨160, 2, 10⟩ 4 (firstTimestamp (writePoints ⟨40, 1, 10⟩
      (twoArchives 0) [(1, 5), (3, 6), (4, 7)]) ⟨40, 1, 10⟩) 2 2 :=
    ⟨by decide +kernel, by decide +kernel, ⟨by decide, .inl (by decide)⟩, by decide, by decide⟩
  exact (@collectsBucket_of_bucketRead _ _ _ _ _ _ _ _ _ _ _ matchesAll addressable bucket
    (worldWith_opened _ _) written).1 2 read

/-- The point at 12 comes back to slot 0, and its bucket starts before it: the point at 11 is
in the last slot, but neither of the two is collected. -/
theorem wrapped_bucket_not_collected :
    IsBucket ⟨40, 1, 10⟩ ⟨160, 2, 10⟩ 12 2 ∧
    WrittenInOrder ⟨40, 1, 10⟩ (twoArchives 0) [(2, 5), (11, 6), (12, 7)] 12
      (writePoints ⟨40, 1, 10⟩ (twoArchives 0) [(2, 5), (11, 6), (12, 7)]) ∧
    heldValues (writePoints ⟨40, 1, 10⟩ (twoArchives 0) [(2, 5), (11, 6), (12, 7)]) ⟨40, 1, 10⟩
      ⟨160, 2, 10⟩ 12 = [6, 7] ∧
    resultOf (@collect matchesAll (some 0) 12 ⟨40, 1, 10⟩ ⟨160, 2, 10⟩) (worldWith []
      (writePoints ⟨40, 1, 10⟩ (twoArchives 0) [(2, 5), (11, 6), (12, 7)])) = some (2, []) ∧
    ¬ @CollectsBucket matchesAll (worldWith [] (writePoints ⟨40, 1, 10⟩ (twoArchives 0)
        [(2, 5), (11, 6), (12, 7)])) 0 (writePoints ⟨40, 1, 10⟩ (twoArchives 0)
        [(2, 5), (11, 6), (12, 7)]) ⟨40, 1, 10⟩ ⟨160, 2, 10⟩ 12 := by
  have held : heldValues (writePoints ⟨40, 1, 10⟩ (twoArchives 0) [(2, 5), (11, 6), (12, 7)])
      ⟨40, 1, 10⟩ ⟨160, 2, 10⟩ 12 = [6, 7] := by
    decide +kernel
  have ran : resultOf (@collect matchesAll (some 0) 12 ⟨40, 1, 10⟩ ⟨160, 2, 10⟩) (worldWith []
      (writePoints ⟨40, 1, 10⟩ (twoArchives 0) [(2, 5), (11, 6), (12, 7)])) = some (2, []) := by
    decide +kernel
  have bucket : IsBucket ⟨40, 1, 10⟩ ⟨160, 2, 10⟩ 12 2 :=
    ⟨by decide, by decide, by decide, by decide, by decide, by decide⟩
  have written : WrittenInOrder ⟨40, 1, 10⟩ (twoArchives 0) [(2, 5), (11, 6), (12, 7)] 12
      (writePoints ⟨40, 1, 10⟩ (twoArchives 0) [(2, 5), (11, 6), (12, 7)]) :=
    ⟨by decide +kernel, rfl, ⟨7, rfl⟩, by decide, by decide, by decide +kernel⟩
  refine ⟨bucket, written, held, ran, ?_⟩
  rintro ⟨w', run, _⟩
  obtain ⟨w'', run'⟩ := Yields.of_resultOf ran
  obtain ⟨same, _⟩ := run.unique run'
  rw [held] at same
  exact nomatch congrArg (fun found => found.2.length) same

end Carbond.Whisper
