import Carbond.Whisper.RatioProofs
import Carbond.Whisper.SlotProofs
import Carbond.Whisper.StampProofs

/-! Two runs in which equally many points of a bucket arrive. A bucket is downsampled by the write
of its last point, so it depends on that one, and beyond it on whether all of them arrived. -/
namespace Carbond.Whisper
open Bytes Posix Text
variable {w : World Globals} {cur low : Retention} {agg : PatternAggregation} {path : Path}
variable {timestamp : UInt32} {count : ℕ}

/-- A timestamp at the highest precision. -/
def alignedTo (cur : Retention) (timestamp : UInt32) : UInt32 := timestamp - timestamp % cur.timePerPoint

/-- The aligned timestamps of a run. -/
def arrivals (cur : Retention) (calls : List (UInt32 × UInt64)) : List UInt32 :=
  calls.map fun call => alignedTo cur call.1

def higherOf (cur low : Retention) : ArchiveInfo := archiveOf [cur, low] 0 cur

def lowerOf (cur low : Retention) : ArchiveInfo := archiveOf [cur, low] 1 low

/-- Two archives in a file below 2 GiB, and a bucket of so many points that ends at `timestamp`. -/
structure TwoLevels (cur low : Retention) (timestamp : UInt32) (count : ℕ) : Prop where
  fits : 16 + 12 * 2 + 12 * (pointsStored cur + pointsStored low) < 2 ^ 31
  bucket : IsBucket (higherOf cur low) (lowerOf cur low) timestamp count

/-- `whisper_create_file` made the file, and nothing was written to it yet. -/
def JustCreated [Platform] (conf : CarbonConf) (metric : CString) (w : World Globals) : Prop :=
  ∃ w₀ fd, Creatable w₀ conf.storageDir metric ∧ w₀.globals.writes = [] ∧
    Yields (whisperCreateFile conf metric) w₀ (some fd) w

/-- A point with this timestamp was written into this archive. -/
def Stored (writes : List PointWrite) (archive : ArchiveInfo) (timestamp : UInt32) : Prop :=
  ∃ entry ∈ writes, entry.archive = archive ∧ entry.timestamp = timestamp

/-- How many timestamps of the bucket arrive. -/
def arrivedCount (cur low : Retention) (timestamp : UInt32) (calls : List (UInt32 × UInt64)) : ℕ :=
  (List.range (nbHigherPoints (higherOf cur low) (lowerOf cur low)).toNat).countP fun j =>
    bucketTime (higherOf cur low) (lowerOf cur low) timestamp j ∈ arrivals cur calls

/-- The points of a run that do not belong to the bucket. -/
def outside (cur low : Retention) (timestamp : UInt32) (calls : List (UInt32 × UInt64)) :
    List (UInt32 × UInt64) :=
  calls.filter fun call => (alignedTo cur call.1).toNat ≤ timestamp.toNat - low.timePerPoint.toNat ∨
    timestamp.toNat < (alignedTo cur call.1).toNat

/-- Two runs in time order that agree outside the bucket and go on behind it, with points for
equally many timestamps of the bucket. -/
structure SameCount (cur low : Retention) (timestamp : UInt32)
    (calls calls' : List (UInt32 × UInt64)) : Prop where
  ordered : (arrivals cur calls).Pairwise fun a b => a.toNat ≤ b.toNat
  ordered' : (arrivals cur calls').Pairwise fun a b => a.toNat ≤ b.toNat
  agree : outside cur low timestamp calls = outside cur low timestamp calls'
  count : arrivedCount cur low timestamp calls = arrivedCount cur low timestamp calls'
  goesOn : ∃ t ∈ arrivals cur calls, timestamp.toNat < t.toNat ∧ low.timePerPoint.toNat ∣ t.toNat
  goesOn' : ∃ t ∈ arrivals cur calls', timestamp.toNat < t.toNat ∧ low.timePerPoint.toNat ∣ t.toNat

/-- Up to the last point at `timestamp`, if there is one, points go to whole slots; the interval
read for it starts at a slot, or it is `clear` that no value is taken for a timestamp. -/
def Straight (higher lower : ArchiveInfo) (timestamp : UInt32) (clear : Prop) :
    (ℕ → UInt32) → List UInt32 → Prop
  | _, [] => True
  | stamps, t :: rest =>
    (timestamp ∈ t :: rest → 12 ∣ placeOfPoint higher t (stamps 0) ∧ (t = timestamp →
      12 ∣ placeOfStart higher lower timestamp (writeStamp higher stamps t 0) ∨ clear)) ∧
    Straight higher lower timestamp clear (writeStamp higher stamps t) rest

instance decideStraight (higher lower : ArchiveInfo) (timestamp : UInt32) (clear : Prop)
    [Decidable clear] : (stamps : ℕ → UInt32) → (timestamps : List UInt32) →
      Decidable (Straight higher lower timestamp clear stamps timestamps)
  | _, [] => .isTrue trivial
  | stamps, t :: rest =>
    @instDecidableAnd _ _ _
      (decideStraight higher lower timestamp clear (writeStamp higher stamps t) rest)

/-- No value of the run can be taken for this timestamp. -/
def Clear (timestamp : UInt32) (calls : List (UInt32 × UInt64)) : Prop :=
  ∀ call ∈ calls, ¬ Mistakable timestamp call.2

instance (timestamp : UInt32) (calls : List (UInt32 × UInt64)) : Decidable (Clear timestamp calls) :=
  List.decidableBAll _ calls

/-- The points of this run are not misplaced, and those of the bucket not misread. -/
def Orderly (cur low : Retention) (timestamp : UInt32) (calls : List (UInt32 × UInt64)) : Prop :=
  Straight (higherOf cur low) (lowerOf cur low) timestamp (Clear timestamp calls) (fun _ => 0)
    (arrivals cur calls)

instance (cur low : Retention) (timestamp : UInt32) (calls : List (UInt32 × UInt64)) :
    Decidable (Orderly cur low timestamp calls) := decideStraight _ _ _ _ _ _

/-- The number of points decides whether the bucket is downsampled: with a factor of 0 if its last
point arrives in both runs or in neither, with any other if both runs are orderly. -/
structure CountDecides (cur low : Retention) (timestamp x : UInt32)
    (calls calls' : List (UInt32 × UInt64)) : Prop where
  last : floatValue x = 0 → (timestamp ∈ arrivals cur calls ↔ timestamp ∈ arrivals cur calls')
  orderly : floatValue x ≠ 0 → Orderly cur low timestamp calls
  orderly' : floatValue x ≠ 0 → Orderly cur low timestamp calls'

/-- Some point at `timestamp` finds its bucket complete, or downsamples it anyway. -/
def Downsampled (higher lower : ArchiveInfo) (timestamp : UInt32) (always : Prop)
    (stamps : ℕ → UInt32) (timestamps : List UInt32) : Prop :=
  ∃ earlier later, timestamps = earlier ++ timestamp :: later ∧ (always ∨
    Complete higher lower timestamp ((earlier ++ [timestamp]).foldl (writeStamp higher) stamps))

/-! ### The two archives -/

namespace TwoLevels

theorem laid (two : TwoLevels cur low timestamp count) : Laid [cur, low] := by
  have fits := two.fits
  have step : cur.timePerPoint.toNat ≠ 0 := Nat.ne_of_gt two.bucket.step
  have multiple : low.timePerPoint.toNat = count * cur.timePerPoint.toNat := two.bucket.multiple
  have step' : low.timePerPoint.toNat ≠ 0 := by
    rw [multiple]
    exact Nat.mul_ne_zero (Nat.ne_of_gt two.bucket.some) step
  have sum : emptySize [cur, low] = 12 * (pointsStored cur + pointsStored low) := by
    rw [emptySize_eq]
    · simp
    · simp only [List.map_cons, List.map_nil, List.sum_cons, List.sum_nil]
      omega
  refine ⟨?_, fun i _ => ?_, ?_⟩
  · intro r member zero
    rcases List.mem_cons.mp member with rfl | last
    · exact step (congrArg UInt32.toNat zero)
    · obtain rfl := List.mem_singleton.mp last
      exact step' (congrArg UInt32.toNat zero)
  · have part := emptySize_take_le [cur, low] i
    rw [List.length_cons, List.length_singleton]
    omega
  · rw [List.length_cons, List.length_singleton]
    omega

theorem first (cur low : Retention) : [cur, low][0]? = some cur := rfl

theorem second (cur low : Retention) : [cur, low][1]? = some low := rfl

theorem higher_offset (two : TwoLevels cur low timestamp count) :
    (higherOf cur low).offset.toNat = 40 :=
  (two.laid.archive_offset (first cur low)).1

theorem points_eq (cur low : Retention) : (higherOf cur low).points.toNat = pointsStored cur :=
  pointCount_toNat cur

theorem higher_words (two : TwoLevels cur low timestamp count) :
    4 ∣ (higherOf cur low).offset.toNat := by
  rw [two.higher_offset]
  decide

theorem lower_offset (two : TwoLevels cur low timestamp count) :
    (lowerOf cur low).offset.toNat = 40 + 12 * (higherOf cur low).points.toNat := by
  have fits := two.fits
  have offset := (two.laid.archive_offset (second cur low)).1
  have size := size_toNat cur (by omega)
  change _ = 40 + (pointCount cur * 12).toNat at offset
  rw [points_eq, ← size]
  exact offset

theorem higher_fits (two : TwoLevels cur low timestamp count) : (higherOf cur low).Fits := by
  have fits := two.fits
  have some := two.bucket.some
  have most := two.bucket.most
  refine ⟨two.bucket.step, by omega, ?_⟩
  rw [two.higher_offset, points_eq]
  omega

theorem lower_seekable (two : TwoLevels cur low timestamp count) :
    (lowerOf cur low).offset.toNat < 2 ^ 31 := by
  have fits := two.fits
  rw [two.lower_offset, points_eq]
  omega

theorem not_mistakable_zero (two : TwoLevels cur low timestamp count) : ¬ Mistakable timestamp 0 := by
  have used : timestamp.toNat ≠ 0 := fun zero => two.bucket.nonzero (UInt32.toNat_inj.mp zero)
  rw [Mistakable, UInt64.toNat_zero, Nat.zero_div, Nat.zero_mod]
  omega

theorem apart (two : TwoLevels cur low timestamp count) : higherOf cur low ≠ lowerOf cur low := by
  intro same
  have slots := two.higher_fits.slots
  have offset := two.lower_offset
  rw [← same, two.higher_offset] at offset
  omega

theorem within (two : TwoLevels cur low timestamp count) (intact : Intact [cur, low] agg c) :
    slotPos (higherOf cur low) (higherOf cur low).points.toNat ≤ c.length := by
  have fits := two.fits
  have long := intact.long
  have size := size_toNat cur (by omega)
  rw [emptySize_cons, size, List.length_cons, List.length_singleton] at long
  rw [slotPos, two.higher_offset, points_eq]
  omega

/-- What is written to the lower archive does not touch the higher one. -/
theorem lower_write (two : TwoLevels cur low timestamp count)
    (intact : Intact [cur, low] agg c) (t : UInt32) (point : ArchivePoint)
    (writable : Writable (lowerOf cur low) (firstTimestamp c (lowerOf cur low))) :
    Intact [cur, low] agg (writePoint c (lowerOf cur low) t point) ∧
      archiveBytes (writePoint c (lowerOf cur low) t point) (higherOf cur low) =
        archiveBytes c (higherOf cur low) := by
  have within := two.within intact
  have sized : firstTimestamp c (lowerOf cur low) = 0 ∨ pointCount low * 12 ≠ 0 :=
    writable.imp_right fun some zero => some.2 (congrArg UInt32.toUInt64 zero)
  have front := le_targetOffset (lowerOf cur low) t _ sized (two.laid.archive_room (second cur low))
  refine ⟨intact.write (List.cons_ne_nil _ _)
    (two.laid.target_behind_headers (second cur low) sized) _, ?_⟩
  rw [slotPos] at within
  rw [two.lower_offset] at front
  apply readAt_writeAt_disjoint within
  left
  rw [two.higher_offset]
  exact front

theorem pointIn_newContents (two : TwoLevels cur low timestamp count)
    (inside : i < (higherOf cur low).points.toNat) :
    pointIn (newContents [cur, low] agg) (slotPos (higherOf cur low) i) = ⟨0, 0⟩ := by
  have within := two.within (show Intact [cur, low] agg _ from intact_newContents)
  rw [newContents_length] at within
  simp only [slotPos, two.higher_offset, List.length_cons, List.length_nil] at within ⊢
  apply Whisper.pointIn_newContents
  · rw [List.length_cons, List.length_singleton]
    omega
  · rw [List.length_cons, List.length_singleton, whisperPointSize]
    omega

end TwoLevels

/-! ### Arrivals -/

theorem downsampled_cons {higher lower : ArchiveInfo} {always : Prop} {stamps : ℕ → UInt32} :
    Downsampled higher lower timestamp always stamps (t :: rest) ↔
      t = timestamp ∧ (always ∨ Complete higher lower timestamp (writeStamp higher stamps t)) ∨
        Downsampled higher lower timestamp always (writeStamp higher stamps t) rest := by
  constructor
  · rintro ⟨earlier, later, split, decided⟩
    cases earlier with
    | nil =>
      obtain ⟨rfl, _⟩ := List.cons.inj split
      exact .inl ⟨rfl, decided⟩
    | cons first earlier =>
      obtain ⟨rfl, same⟩ := List.cons.inj split
      exact .inr ⟨earlier, later, same, decided⟩
  · rintro (⟨rfl, decided⟩ | ⟨earlier, later, rfl, decided⟩)
    · exact ⟨[], rest, rfl, decided⟩
    · exact ⟨t :: earlier, later, rfl, decided⟩

theorem alignedTo_dvd (cur : Retention) (t : UInt32) :
    cur.timePerPoint.toNat ∣ (alignedTo cur t).toNat := by
  have below := Nat.mod_le t.toNat cur.timePerPoint.toNat
  rw [alignedTo, UInt32.toNat_sub_of_le _ _ (UInt32.le_iff_toNat_le.mpr (by rwa [UInt32.toNat_mod])),
    UInt32.toNat_mod]
  exact Nat.dvd_sub_mod t.toNat

/-- Aligned timestamps inside the bucket are those of its points. -/
theorem IsBucket.exists_bucketTime {higher lower : ArchiveInfo}
    (bucket : IsBucket higher lower timestamp count) (aligned : higher.secondsPerPoint.toNat ∣ t)
    (after : timestamp.toNat - lower.secondsPerPoint.toNat < t) (before : t ≤ timestamp.toNat) :
    ∃ j < count, (bucketTime higher lower timestamp j).toNat = t := by
  have start : higher.secondsPerPoint.toNat ∣ timestamp.toNat - lower.secondsPerPoint.toNat := by
    have part : higher.secondsPerPoint.toNat ∣ lower.secondsPerPoint.toNat := by
      rw [bucket.multiple]
      exact Nat.dvd_mul_left _ _
    exact Nat.dvd_sub (part.trans bucket.aligned) part
  obtain ⟨m, distance⟩ := Nat.dvd_sub aligned start
  have le := bucket.le
  have some : m ≠ 0 := by
    rintro rfl
    rw [Nat.mul_zero] at distance
    omega
  have most : m ≤ count := by
    have bound : higher.secondsPerPoint.toNat * m ≤ higher.secondsPerPoint.toNat * count := by
      rw [← distance, Nat.mul_comm _ count, ← bucket.multiple]
      omega
    exact Nat.le_of_mul_le_mul_left bound bucket.step
  refine ⟨m - 1, by omega, ?_⟩
  rw [bucket.bucketTime_toNat (by omega), show m - 1 + 1 = m by omega, Nat.mul_comm, ← distance]
  omega

/-- All timestamps of the bucket arrive exactly if as many arrive as it has. -/
theorem TwoLevels.arrivedCount_eq_iff (two : TwoLevels cur low timestamp count)
    (calls : List (UInt32 × UInt64)) : arrivedCount cur low timestamp calls = count ↔
      ∀ j < count, bucketTime (higherOf cur low) (lowerOf cur low) timestamp j ∈ arrivals cur calls := by
  have all := List.countP_eq_length (l := List.range count)
    (p := fun j => bucketTime (higherOf cur low) (lowerOf cur low) timestamp j ∈ arrivals cur calls)
  rw [List.length_range] at all
  rw [arrivedCount, two.bucket.count_eq, all]
  simp only [List.mem_range, decide_eq_true_eq]

/-- In front of the bucket, the same timestamps arrive in both runs. -/
theorem mem_arrivals_outside (agree : outside cur low timestamp calls = outside cur low timestamp calls')
    (front : t.toNat ≤ timestamp.toNat - low.timePerPoint.toNat) (member : t ∈ arrivals cur calls) :
    t ∈ arrivals cur calls' := by
  obtain ⟨call, known, rfl⟩ := List.mem_map.mp member
  have both : call ∈ outside cur low timestamp calls :=
    List.mem_filter.mpr ⟨known, decide_eq_true (.inl front)⟩
  rw [agree] at both
  exact List.mem_map.mpr ⟨call, (List.mem_filter.mp both).1, rfl⟩

/-- In time order, what is written up to some point at a timestamp is what is not later. -/
theorem mem_upTo_iff (ordered : (earlier ++ timestamp :: later).Pairwise fun a b => a.toNat ≤ b.toNat) :
    t ∈ earlier ++ [timestamp] ↔
      t ∈ earlier ++ timestamp :: later ∧ t.toNat ≤ timestamp.toNat := by
  obtain ⟨_, behind, before⟩ := List.pairwise_append.mp ordered
  constructor
  · intro member
    rcases List.mem_append.mp member with early | here
    · exact ⟨List.mem_append_left _ early, before t early timestamp List.mem_cons_self⟩
    · obtain rfl := List.mem_singleton.mp here
      exact ⟨List.mem_append_right _ List.mem_cons_self, Nat.le_refl _⟩
  · rintro ⟨member, low⟩
    rcases List.mem_append.mp member with early | late
    · exact List.mem_append_left _ early
    · apply List.mem_append_right
      rcases List.mem_cons.mp late with rfl | further
      · exact List.mem_singleton_self _
      · have high := (List.pairwise_cons.mp behind).1 t further
        rw [UInt32.toNat_inj.mp (Nat.le_antisymm low high)]
        exact List.mem_singleton_self _

/-- With equally many points of the bucket, it is found complete in both runs or in neither. -/
theorem TwoLevels.downsampled_of_same (two : TwoLevels cur low timestamp count)
    (ordered : (arrivals cur calls).Pairwise fun a b => a.toNat ≤ b.toNat)
    (ordered' : (arrivals cur calls').Pairwise fun a b => a.toNat ≤ b.toNat)
    (agree : outside cur low timestamp calls = outside cur low timestamp calls')
    (same : arrivedCount cur low timestamp calls = arrivedCount cur low timestamp calls')
    (found : Downsampled (higherOf cur low) (lowerOf cur low) timestamp False (fun _ => 0)
      (arrivals cur calls)) : Downsampled (higherOf cur low) (lowerOf cur low) timestamp False
        (fun _ => 0) (arrivals cur calls') := by
  have bucket := two.bucket
  obtain ⟨earlier, later, split, complete⟩ := found
  have complete := complete.resolve_left id
  rw [split] at ordered
  have all : ∀ j < count, bucketTime (higherOf cur low) (lowerOf cur low) timestamp j ∈
      arrivals cur calls := by
    intro j inside
    have member := complete.arrived bucket inside
    rw [split]
    exact ((mem_upTo_iff ordered).mp member).1
  have all' := (two.arrivedCount_eq_iff calls').mp
    (same.symm.trans ((two.arrivedCount_eq_iff calls).mpr all))
  have some := bucket.some
  have last := all' (count - 1) (by omega)
  rw [bucket.bucketTime_last] at last
  obtain ⟨earlier', later', split'⟩ := List.append_of_mem last
  rw [split'] at ordered'
  refine ⟨earlier', later', split', .inr ?_⟩
  have members (t : UInt32) : t ∈ earlier ++ [timestamp] ↔ t ∈ earlier' ++ [timestamp] := by
    rw [mem_upTo_iff ordered, mem_upTo_iff ordered', ← split, ← split']
    apply and_congr_left
    intro notLater
    by_cases front : t.toNat ≤ timestamp.toNat - low.timePerPoint.toNat
    · exact ⟨mem_arrivals_outside agree front, mem_arrivals_outside agree.symm front⟩
    · -- Inside the bucket every aligned timestamp arrives.
      have inside (calls : List (UInt32 × UInt64)) (member : t ∈ arrivals cur calls) :
          ∃ j < count, bucketTime (higherOf cur low) (lowerOf cur low) timestamp j = t := by
        obtain ⟨call, _, aligned⟩ := List.mem_map.mp member
        obtain ⟨j, within, time⟩ := bucket.exists_bucketTime
          (aligned ▸ alignedTo_dvd cur call.1) (Nat.lt_of_not_le front) notLater
        exact ⟨j, within, UInt32.toNat_inj.mp time⟩
      constructor
      · intro member
        obtain ⟨j, within, rfl⟩ := inside calls member
        exact all' j within
      · intro member
        obtain ⟨j, within, rfl⟩ := inside calls' member
        exact all j within
  have upTo (earlier later : List UInt32) :
      (earlier ++ [timestamp]).Sublist (earlier ++ timestamp :: later) :=
    (List.singleton_sublist.mpr List.mem_cons_self).append_left earlier
  have stamps := stampsOf_congr (ordered.sublist (upTo earlier later))
    (ordered'.sublist (upTo earlier' later')) members (higherOf cur low)
  rw [stampsOf, stampsOf] at stamps
  rwa [← stamps]

/-- Where every bucket is downsampled, only its last point counts. -/
theorem downsampled_always {higher lower : ArchiveInfo} {stamps : ℕ → UInt32} (holds : always) :
    Downsampled higher lower timestamp always stamps timestamps ↔ timestamp ∈ timestamps := by
  rw [List.mem_iff_append]
  constructor
  · rintro ⟨earlier, later, split, _⟩
    exact ⟨earlier, later, split⟩
  · rintro ⟨earlier, later, split⟩
    exact ⟨earlier, later, split, .inl holds⟩

/-! ### One call -/

theorem stored_append_singleton : Stored (writes ++ [entry]) archive timestamp ↔
    Stored writes archive timestamp ∨ entry.archive = archive ∧ entry.timestamp = timestamp := by
  simp only [Stored, List.mem_append, List.mem_singleton, or_and_right, exists_or, exists_eq_left]

/-- The file has these contents, and these are the writes so far. -/
def Rests (path : Path) (c : List UInt8) (writes : List PointWrite) (w : World Globals) : Prop :=
  w.outcomes = [] ∧ w.nodes path = some (.file c) ∧ w.globals.writes = writes

theorem Kept.close (kept : Kept fd path c writes w) (fd' : Fd) :
    Ends w (close fd') (fun _ => Rests path c writes) fault := by
  obtain ⟨⟨pos, opened⟩, log⟩ := kept
  obtain ⟨descriptors, closed⟩ := close_yields opened.quiet fd'
  exact .of_yields closed ⟨opened.quiet, opened.node, log⟩

section
variable [Platform]

/-- A point that is due is written, unless its archive has no size. -/
theorem propagateKnown_ends (opened : Opened w fd path c pos) (positive : nb ≠ 0)
    (step : lower.secondsPerPoint ≠ 0) (seekable : lower.offset.toNat < 2 ^ 31) (timestamp : UInt32)
    (wspMd : Metadata) (known : List UInt64) :
    Ends w (propagateKnown (some fd) timestamp wspMd lower nb known)
      (fun _ w' => Platform.atLeast (UInt32.ofNat known.length / nb) wspMd.xFilesFactor = true ∧
          Writable lower (firstTimestamp c lower) ∧
          (∃ value, Kept fd path (writePoint c lower timestamp (htonArchivePoint ⟨timestamp, value⟩))
            (w.globals.writes ++
              [pointWrite c lower timestamp (htonArchivePoint ⟨timestamp, value⟩)]) w') ∨
        Platform.atLeast (UInt32.ofNat known.length / nb) wspMd.xFilesFactor ≠ true ∧
          Kept fd path c w.globals.writes w')
      (fun _ _ => archiveSize lower = 0) := by
  by_cases decided : Platform.atLeast (UInt32.ofNat known.length / nb) wspMd.xFilesFactor = true
  · by_cases writable : Writable lower (firstTimestamp c lower)
    · obtain ⟨r, w', value, pos', run, more, opened'⟩ :=
        (propagateKnown_receives_iff opened positive step timestamp decided).mpr ⟨seekable, writable⟩
      exact .of_yields run (.inl ⟨decided, writable, value, ⟨pos', opened'⟩, more⟩)
    · obtain ⟨used, unsized⟩ := not_or.mp writable
      have none : archiveSize lower = 0 := by
        by_contra sized
        exact unsized ⟨step, sized⟩
      have stops (point : ArchivePoint) : Ends w (whisperWritePoint (some fd) lower timestamp point)
          (fun _ _ => False) (fun _ _ => archiveSize lower = 0) :=
        (whisperWritePoint_unsized opened timestamp point seekable step used none).weaken
          (fun _ _ => id) fun _ _ _ => none
      refine .of_eq (propagateKnown_eq (some fd) timestamp lower positive decided) ?_
      exact .bind (stops _) fun _ _ => False.elim
  · obtain ⟨r, w', run, kept⟩ := propagateKnown_leaves opened positive timestamp lower decided
    exact .of_yields run (.inr ⟨decided, kept⟩)

/-- After a call for `t` has written its own point, it ends with these contents and writes. Only
the call for the last timestamp of the bucket downsamples it: with a factor of 0, or if its
interval shows all points. -/
structure Propagated (cur low : Retention) (agg : PatternAggregation) (timestamp : UInt32)
    (c : List UInt8) (t : UInt32) (before : List PointWrite) (c' : List UInt8)
    (after : List PointWrite) : Prop where
  intact : Intact [cur, low] agg c'
  same : archiveBytes c' (higherOf cur low) = archiveBytes c (higherOf cur low)
  other : t ≠ timestamp →
    (Stored after (lowerOf cur low) timestamp ↔ Stored before (lowerOf cur low) timestamp)
  last : t = timestamp → ∃ w fd path pos known w', Opened w fd path c pos ∧
    Yields (collect (some fd) timestamp (higherOf cur low) (lowerOf cur low)) w
      (nbHigherPoints (higherOf cur low) (lowerOf cur low), known) w' ∧
    (Stored after (lowerOf cur low) timestamp ↔ Stored before (lowerOf cur low) timestamp ∨
      known.length = (nbHigherPoints (higherOf cur low) (lowerOf cur low)).toNat ∨
      floatValue agg.xff = 0)

theorem TwoLevels.propagate (two : TwoLevels cur low timestamp count) (compares : ComparesExactly)
    (factor : IsFactor agg.xff) (opened : Opened w fd path c pos) (intact : Intact [cur, low] agg c)
    (t : UInt32) :
    Ends w (whisperWritePropagate (some fd) t (newMetadata [cur, low] agg) (higherOf cur low)
        (lowerOf cur low))
      (fun _ w' => ∃ c' after, Kept fd path c' after w' ∧
        Propagated cur low agg timestamp c t w.globals.writes c' after)
      (fun _ _ => archiveSize (lowerOf cur low) = 0) := by
  have addressable := two.higher_fits.addressable
  have nonzero : nbHigherPoints (higherOf cur low) (lowerOf cur low) ≠ 0 := by
    intro zero
    have some := two.bucket.some
    rw [← two.bucket.count_eq, zero, UInt32.toNat_zero] at some
    contradiction
  have step : (lowerOf cur low).secondsPerPoint ≠ 0 := by
    intro zero
    apply nonzero
    rw [nbHigherPoints, zero, UInt32.zero_div]
  have total : Ends w (collect (some fd) t (higherOf cur low) (lowerOf cur low)) _
      fun _ _ => False :=
    ((Kept.of_opened opened).collect t (higherOf cur low) (lowerOf cur low)).weaken
      (fun _ _ => id) fun _ _ stop => stop.2.1.elim addressable.step_ne_zero
        addressable.archiveSize_ne_zero
  obtain ⟨⟨nb, known⟩, w₁, collected, rfl, most, _, ⟨pos₁, opened₁⟩, log⟩ :=
    total.returns_of_not_stops
  have decision := atLeast_iff compares factor
    (Nat.pos_of_ne_zero fun zero => nonzero (UInt32.toNat_inj.mp zero)) most
  rw [whisperWritePropagate_eq]
  refine .after collected ((propagateKnown_ends opened₁ nonzero step two.lower_seekable t
    (newMetadata [cur, low] agg) known).weaken ?_ fun _ _ => id)
  rintro _ w' (⟨decided, writable, value, kept⟩ | ⟨undecided, kept⟩)
  · obtain ⟨intact', same⟩ := two.lower_write intact t (htonArchivePoint ⟨t, value⟩) writable
    refine ⟨_, _, kept, intact', same, ?_, ?_⟩
    · intro elsewhere
      rw [stored_append_singleton, log]
      exact or_iff_left fun here => elsewhere here.2
    · rintro rfl
      refine ⟨w, fd, path, pos, known, w₁, opened, collected, ?_⟩
      rw [stored_append_singleton, log]
      exact ⟨fun _ => .inr (decision.mp decided), fun _ => .inr ⟨rfl, rfl⟩⟩
  · rw [log] at kept
    refine ⟨_, _, kept, intact, rfl, fun _ => Iff.rfl, ?_⟩
    rintro rfl
    refine ⟨w, fd, path, pos, known, w₁, opened, collected, ?_⟩
    exact ⟨.inl, fun all => all.resolve_right fun due => undecided (decision.mpr due)⟩

/-- The loop over the lower archives has one round here. -/
theorem TwoLevels.propagateLoop (two : TwoLevels cur low timestamp count)
    (compares : ComparesExactly) (factor : IsFactor agg.xff) (opened : Opened w fd path c pos)
    (intact : Intact [cur, low] agg c) (t : UInt32) :
    Ends w (propagateLoop (some fd) t (newMetadata [cur, low] agg) 1 1 (higherOf cur low))
      (fun _ w' => ∃ c' after, Kept fd path c' after w' ∧
        Propagated cur low agg timestamp c t w.globals.writes c' after)
      (fun _ _ => archiveSize (lowerOf cur low) = 0) := by
  obtain ⟨pos₁, read⟩ := whisperReadArchiveInfo_yields opened 1 (by decide)
  rw [intact.info (TwoLevels.second cur low)] at read
  have step : low.timePerPoint ≠ 0 :=
    two.laid.positive low (List.mem_cons_of_mem _ List.mem_cons_self)
  have there := opened.moved c pos₁
  refine .after read ?_
  dsimp only
  rw [if_neg (show ¬ (archiveOf [cur, low] 1 low).secondsPerPoint = 0 from step)]
  refine .after (modulo32_yields t step) ?_
  split
  case isTrue =>
    refine .bind (two.propagate compares factor there intact t) fun _ w' done => ?_
    exact .pure done
  case isFalse rest =>
    refine .pure ⟨c, _, .of_opened there, intact, rfl, fun _ => Iff.rfl, ?_⟩
    rintro rfl
    -- The bucket ends at a multiple of the lower resolution.
    refine absurd (UInt32.toNat_inj.mp ?_) rest
    rw [UInt32.toNat_mod, UInt32.toNat_zero]
    exact Nat.mod_eq_zero_of_dvd two.bucket.aligned

/-- One call on the file. -/
theorem TwoLevels.writeValue (two : TwoLevels cur low timestamp count) (compares : ComparesExactly)
    (factor : IsFactor agg.xff) {conf : CarbonConf} {metric : CString}
    (rests : Rests (whisperMetricFilename conf.storageDir metric) c writes w)
    (intact : Intact [cur, low] agg c) (t : UInt32) (value : UInt64) :
    Ends w (whisperWriteValue conf metric t value)
      (fun _ w' => ∃ c' after, Rests (whisperMetricFilename conf.storageDir metric) c' after w' ∧
        Propagated cur low agg timestamp (writePoint c (higherOf cur low) (alignedTo cur t)
          (htonArchivePoint ⟨alignedTo cur t, value⟩)) (alignedTo cur t) writes c' after)
      (fun _ _ => archiveSize (lowerOf cur low) = 0) := by
  obtain ⟨quiet, node, rfl⟩ := rests
  have fits := two.higher_fits
  have bound := fits.bound
  have step : cur.timePerPoint ≠ 0 := two.laid.positive cur List.mem_cons_self
  obtain ⟨w₁, opens, opened, same⟩ := openFile_yields quiet node false
  obtain ⟨pos₁, call⟩ := writeOpened_eq opened intact (TwoLevels.first cur low) step t value
  have count : (newMetadata [cur, low] agg).archiveCount.toNat - 1 = 1 := rfl
  rw [count] at call
  have seekable : (higherOf cur low).offset.toNat < 2 ^ 31 := by omega
  obtain ⟨w₂, wrote, ⟨pos₂, opened₂⟩, log⟩ := (Kept.of_opened (opened.moved c pos₁)).writePoint
    (alignedTo cur t) (htonArchivePoint ⟨alignedTo cur t, value⟩) seekable fits.writable
  have intact' : Intact [cur, low] agg (writePoint c (higherOf cur low) (alignedTo cur t)
      (htonArchivePoint ⟨alignedTo cur t, value⟩)) :=
    intact.write (List.cons_ne_nil _ _) (two.laid.target_behind_headers (TwoLevels.first cur low)
      (.inr fun zero => fits.addressable.sized zero)) _
  refine .after opens (.of_eq call (.after wrote ?_))
  refine .bind (two.propagateLoop compares factor opened₂ intact' (alignedTo cur t)) ?_
  rintro _ w₃ ⟨c', after, kept, propagated⟩
  rw [log, World.put_globals, same] at propagated
  refine .bind (kept.close _) fun _ w₄ rests => .pure ⟨c', after, rests, ?_⟩
  -- The point of the higher archive does not count.
  have before : Stored (w.globals.writes ++ [pointWrite c (higherOf cur low) (alignedTo cur t)
      (htonArchivePoint ⟨alignedTo cur t, value⟩)]) (lowerOf cur low) timestamp ↔
      Stored w.globals.writes (lowerOf cur low) timestamp := by
    rw [stored_append_singleton]
    exact or_iff_left fun here => two.apart here.1
  refine ⟨propagated.intact, propagated.same, ?_, ?_⟩
  · rw [← before]
    exact propagated.other
  · rw [← before]
    exact propagated.last

/-! ### Runs -/

/-- Before the last point at `timestamp`, the slots hold these timestamps, and values that are as
`clear` as those that follow. -/
structure Tracked (cur low : Retention) (timestamp : UInt32) (c : List UInt8)
    (stamps : ℕ → UInt32) (clear : Prop) (calls : List (UInt32 × UInt64)) : Prop where
  stamped : Stamped c (higherOf cur low) stamps
  straight : Straight (higherOf cur low) (lowerOf cur low) timestamp clear stamps
    (arrivals cur calls)
  unmistakable : clear → Unmistakable c (higherOf cur low) timestamp
  clear : clear → Clear timestamp calls

/-- A run stores the point of the bucket exactly if one of its calls downsamples it. -/
theorem TwoLevels.writeValues (two : TwoLevels cur low timestamp count) (compares : ComparesExactly)
    (factor : IsFactor agg.xff) {conf : CarbonConf} {metric : CString}
    (rests : Rests (whisperMetricFilename conf.storageDir metric) c writes w)
    (intact : Intact [cur, low] agg c) (calls : List (UInt32 × UInt64)) :
    Ends w (whisperWriteValues conf metric calls)
      (fun _ w' => ∀ stamps clear, (floatValue agg.xff ≠ 0 → timestamp ∈ arrivals cur calls →
          Tracked cur low timestamp c stamps clear calls) →
        (Stored w'.globals.writes (lowerOf cur low) timestamp ↔
          Stored writes (lowerOf cur low) timestamp ∨ Downsampled (higherOf cur low)
            (lowerOf cur low) timestamp (floatValue agg.xff = 0) stamps (arrivals cur calls)))
      (fun _ _ => archiveSize (lowerOf cur low) = 0) := by
  induction calls generalizing w c writes with
  | nil =>
    refine .pure fun stamps clear _ => ?_
    rw [rests.2.2]
    refine (or_iff_left ?_).symm
    rintro ⟨earlier, later, split, _⟩
    exact nomatch (List.append_eq_nil_iff.mp split.symm).2
  | cons call rest ih =>
    obtain ⟨t, value⟩ := call
    have fits := two.higher_fits
    refine .bind (two.writeValue compares factor rests intact t value) ?_
    rintro _ w₁ ⟨c₁, after, rests₁, done⟩
    refine (ih rests₁ done.intact).weaken ?_ fun _ _ => id
    intro _ w₂ final stamps clear tracked
    -- The write of the call, where it goes to a whole slot.
    have written : floatValue agg.xff ≠ 0 → timestamp ∈ arrivals cur ((t, value) :: rest) →
        Stamped (writePoint c (higherOf cur low) (alignedTo cur t)
            (htonArchivePoint ⟨alignedTo cur t, value⟩)) (higherOf cur low)
          (writeStamp (higherOf cur low) stamps (alignedTo cur t)) ∧
        (clear → Unmistakable (writePoint c (higherOf cur low) (alignedTo cur t)
          (htonArchivePoint ⟨alignedTo cur t, value⟩)) (higherOf cur low) timestamp) := by
      intro some member
      obtain ⟨stamped, straight, unmistakable, values⟩ := tracked some member
      have whole := (straight.1 member).1
      refine ⟨stamped.writePoint fits.addressable (two.within intact) whole value, fun holds => ?_⟩
      rw [← stamped.first fits.slots] at whole
      exact (unmistakable holds).writePoint fits.addressable (two.within intact) whole
        (values holds (t, value) List.mem_cons_self)
    have further : floatValue agg.xff ≠ 0 → timestamp ∈ arrivals cur rest → Tracked cur low timestamp
        c₁ (writeStamp (higherOf cur low) stamps (alignedTo cur t)) clear rest := by
      intro some member
      have member' : timestamp ∈ arrivals cur ((t, value) :: rest) := List.mem_cons_of_mem _ member
      obtain ⟨stamped, unmistakable⟩ := written some member'
      refine ⟨stamped.congr done.same, (tracked some member').straight.2,
        fun holds => (unmistakable holds).congr done.same, fun holds call known => ?_⟩
      exact (tracked some member').clear holds call (List.mem_cons_of_mem _ known)
    have first : arrivals cur ((t, value) :: rest) = alignedTo cur t :: arrivals cur rest := rfl
    rw [final _ _ further, first, downsampled_cons, ← or_assoc]
    apply or_congr_left
    by_cases last : alignedTo cur t = timestamp
    · have member : timestamp ∈ arrivals cur ((t, value) :: rest) := last ▸ List.mem_cons_self
      obtain ⟨w₃, fd, path, pos, known, w₄, opened, collected, stored⟩ := done.last last
      rw [stored]
      apply or_congr_right
      rw [or_comm, and_iff_right last]
      by_cases zero : floatValue agg.xff = 0
      · exact ⟨fun _ => .inl zero, fun _ => .inl zero⟩
      · obtain ⟨stamped, unmistakable⟩ := written zero member
        have aligned := ((tracked zero member).straight.1 member).2 last
        rw [two.bucket.count_eq, stamped.collect_complete_iff fits two.bucket opened
          (writePoint_length (two.within intact)) two.higher_words
          (aligned.imp_right unmistakable) collected]
    · rw [done.other last]
      exact (or_iff_left fun here => last here.1).symm

theorem JustCreated.rests {conf : CarbonConf} {metric : CString} (created : JustCreated conf metric w)
    (found : whisperFindRetention metric conf.schema = ret)
    (aggregated : whisperFindAggregation metric conf.aggregation = some agg)
    (positive : ∀ cur ∈ ret, cur.timePerPoint ≠ 0) :
    Rests (whisperMetricFilename conf.storageDir metric) (newContents ret agg) [] w := by
  obtain ⟨w₀, fd, creatable, clean, run⟩ := created
  obtain ⟨fd', w₁, opened, same, rest⟩ := whisperCreateFile_opens aggregated creatable
  rw [found] at rest
  obtain ⟨_, rfl⟩ := run.unique (rest.trans (writeNewFile_yields positive opened))
  have final := opened.moved (newContents ret agg) (newContents ret agg).length
  refine ⟨final.quiet, final.node, ?_⟩
  rw [World.put_globals, same, clean]

/-- A run from the new file. -/
theorem TwoLevels.run (two : TwoLevels cur low timestamp count) (compares : ComparesExactly)
    {conf : CarbonConf} {metric : CString} (factor : IsFactor agg.xff)
    (found : whisperFindRetention metric conf.schema = [cur, low])
    (aggregated : whisperFindAggregation metric conf.aggregation = some agg)
    (created : JustCreated conf metric w) (calls : List (UInt32 × UInt64)) :
    Ends w (whisperWriteValues conf metric calls)
      (fun _ w' => (floatValue agg.xff ≠ 0 → Orderly cur low timestamp calls) →
        (Stored w'.globals.writes (lowerOf cur low) timestamp ↔ Downsampled (higherOf cur low)
          (lowerOf cur low) timestamp (floatValue agg.xff = 0) (fun _ => 0) (arrivals cur calls)))
      (fun _ _ => archiveSize (lowerOf cur low) = 0) := by
  have rests := created.rests found aggregated two.laid.positive
  refine (two.writeValues compares factor rests intact_newContents calls).weaken ?_ fun _ _ => id
  intro _ w' stored orderly
  have tracked : floatValue agg.xff ≠ 0 → timestamp ∈ arrivals cur calls → Tracked cur low timestamp
      (newContents [cur, low] agg) (fun _ => 0) (Clear timestamp calls) calls := by
    intro some _
    refine ⟨fun i inside => ?_, orderly some, fun _ i inside => ?_, id⟩
    · rw [two.pointIn_newContents inside]
    · rw [two.pointIn_newContents inside]
      exact two.not_mistakable_zero
  rw [stored _ _ tracked]
  apply or_iff_right
  rintro ⟨_, none, _⟩
  exact nomatch none

/-- Where the lower archive has points, every run returns. -/
theorem TwoLevels.run_returns (two : TwoLevels cur low timestamp count) (compares : ComparesExactly)
    {conf : CarbonConf} {metric : CString} (factor : IsFactor agg.xff)
    (found : whisperFindRetention metric conf.schema = [cur, low])
    (aggregated : whisperFindAggregation metric conf.aggregation = some agg)
    (created : JustCreated conf metric w) (calls : List (UInt32 × UInt64))
    (points : 0 < pointsStored low) : ∃ w', Yields (whisperWriteValues conf metric calls) w () w' := by
  have sized : archiveSize (lowerOf cur low) ≠ 0 := by
    intro zero
    have fits := two.fits
    have size := size_toNat low (by omega)
    have none : pointCount low * 12 = 0 := UInt32.toUInt64_inj.mp zero
    rw [none, UInt32.toNat_zero] at size
    omega
  obtain ⟨_, w', run, _⟩ := ((two.run compares factor found aggregated created calls).weaken
    (fun _ _ => id) fun _ _ zero => sized zero).returns_of_not_stops
  exact ⟨w', run⟩

/-- Two runs on the new file with equally many points of a bucket both downsample it or both do
not, where the number of points decides. With a factor of 0 this is only so if the last point of
the bucket arrives in both or in neither. -/
theorem stored_iff_of_countDecides (compares : ComparesExactly) {conf : CarbonConf}
    {metric : CString} (found : whisperFindRetention metric conf.schema = [cur, low])
    (aggregated : whisperFindAggregation metric conf.aggregation = some agg)
    (factor : IsFactor agg.xff) (two : TwoLevels cur low timestamp count)
    (created : JustCreated conf metric w) (created' : JustCreated conf metric w')
    (runs : SameCount cur low timestamp calls calls')
    (run : Yields (whisperWriteValues conf metric calls) w () w₁)
    (run' : Yields (whisperWriteValues conf metric calls') w' () w₁') :
    (CountDecides cur low timestamp agg.xff calls calls' →
      (Stored w₁.globals.writes (lowerOf cur low) timestamp ↔
        Stored w₁'.globals.writes (lowerOf cur low) timestamp)) ∧
    (floatValue agg.xff = 0 →
      (Stored w₁.globals.writes (lowerOf cur low) timestamp ↔
        Stored w₁'.globals.writes (lowerOf cur low) timestamp) →
      CountDecides cur low timestamp agg.xff calls calls') := by
  have stored := (two.run compares factor found aggregated created calls).returns _ _ run
  have stored' := (two.run compares factor found aggregated created' calls').returns _ _ run'
  by_cases zero : floatValue agg.xff = 0
  · rw [stored fun some => absurd zero some, stored' fun some => absurd zero some,
      downsampled_always zero, downsampled_always zero]
    refine ⟨fun decides => decides.last zero, fun _ same => ⟨fun _ => same, ?_, ?_⟩⟩
    · exact fun some => absurd zero some
    · exact fun some => absurd zero some
  · refine ⟨fun decides => ?_, fun none => absurd none zero⟩
    rw [stored decides.orderly, stored' decides.orderly', eq_false zero]
    constructor
    · exact two.downsampled_of_same runs.ordered runs.ordered' runs.agree runs.count
    · exact two.downsampled_of_same runs.ordered' runs.ordered runs.agree.symm runs.count.symm

end

instance (writes : List PointWrite) (archive : ArchiveInfo) (timestamp : UInt32) :
    Decidable (Stored writes archive timestamp) :=
  inferInstanceAs (Decidable (∃ entry ∈ writes, _))

/-- Whether a run from the creation of the file stores this point. -/
def storedAfter [Platform] (conf : CarbonConf) (metric : CString) (calls : List (UInt32 × UInt64))
    (archive : ArchiveInfo) (timestamp : UInt32) : Action Bool := do
  let _ ← whisperCreateFile conf metric
  whisperWriteValues conf metric calls
  return decide (Stored (← get).globals.writes archive timestamp)

theorem storedAfter_eq [Platform] {conf : CarbonConf} {metric : CString} {fd : Fd}
    (creates : Yields (whisperCreateFile conf metric) w₀ fd w)
    (run : Yields (whisperWriteValues conf metric calls) w () w₁)
    (ran : resultOf (storedAfter conf metric calls archive timestamp) w₀ = some result) :
    decide (Stored w₁.globals.writes archive timestamp) = result := by
  rw [resultOf, storedAfter, creates.rest_eq, run.rest_eq, (Yields.get w₁).rest_eq] at ran
  exact Option.some.inj ran

/-- Ten points of one second, ten of two, and the bucket of 3 and 4. -/
theorem twoLevels_small : TwoLevels ⟨1, 10⟩ ⟨2, 20⟩ 4 2 :=
  ⟨by decide, by decide, by decide, by decide, by decide, by decide, by decide⟩

theorem created_small (xff : UInt32) : ∃ fd w,
    Yields (@whisperCreateFile comparesNumbers (soleRule [⟨1, 10⟩, ⟨2, 20⟩] ⟨[], xff, .average⟩)
      "a".toList) emptyWorld (some fd) w ∧
    @JustCreated comparesNumbers (soleRule [⟨1, 10⟩, ⟨2, 20⟩] ⟨[], xff, .average⟩) "a".toList w := by
  let : Platform := comparesNumbers
  have positive : ∀ r ∈ [(⟨1, 10⟩ : Retention), ⟨2, 20⟩], r.timePerPoint ≠ 0 := by
    decide
  have creatable : Creatable emptyWorld (soleRule [⟨1, 10⟩, ⟨2, 20⟩] ⟨[], xff, .average⟩).storageDir
      "a".toList := emptyWorld_creatable (by decide) _
  have found : whisperFindRetention "a".toList
      (soleRule [⟨1, 10⟩, ⟨2, 20⟩] ⟨[], xff, .average⟩).schema = [⟨1, 10⟩, ⟨2, 20⟩] := rfl
  obtain ⟨fd, w, created, _⟩ := whisperCreateFile_yields found rfl positive creatable
  exact ⟨fd, w, created, emptyWorld, fd, creatable, rfl, created⟩

/-- One point of two, the first in one run and the last in the other, and a factor of one half. -/
theorem stored_iff_of_countDecides_witness : ∃ w w₁ w₁',
    Yields (@whisperWriteValues comparesNumbers (soleRule [⟨1, 10⟩, ⟨2, 20⟩]
      ⟨[], 0x3f000000, .average⟩) "a".toList [(3, 5), (6, 7)]) w () w₁ ∧
    Yields (@whisperWriteValues comparesNumbers (soleRule [⟨1, 10⟩, ⟨2, 20⟩]
      ⟨[], 0x3f000000, .average⟩) "a".toList [(4, 6), (6, 7)]) w () w₁' ∧
    (Stored w₁.globals.writes (lowerOf ⟨1, 10⟩ ⟨2, 20⟩) 4 ↔
      Stored w₁'.globals.writes (lowerOf ⟨1, 10⟩ ⟨2, 20⟩) 4) := by
  obtain ⟨_, w, _, created⟩ := created_small 0x3f000000
  let : Platform := comparesNumbers
  have finishes := twoLevels_small.run_returns comparesNumbers_exactly isFactor_half rfl rfl created
  obtain ⟨w₁, run⟩ := finishes [(3, 5), (6, 7)] (by decide)
  obtain ⟨w₁', run'⟩ := finishes [(4, 6), (6, 7)] (by decide)
  have runs : SameCount ⟨1, 10⟩ ⟨2, 20⟩ 4 [(3, 5), (6, 7)] [(4, 6), (6, 7)] :=
    ⟨by decide, by decide, by decide, by decide, by decide, by decide⟩
  have decides : CountDecides ⟨1, 10⟩ ⟨2, 20⟩ 4 0x3f000000 [(3, 5), (6, 7)] [(4, 6), (6, 7)] :=
    ⟨by decide +kernel, fun _ => by decide +kernel, fun _ => by decide +kernel⟩
  exact ⟨w, w₁, w₁', run, run', (stored_iff_of_countDecides comparesNumbers_exactly rfl rfl isFactor_half
    twoLevels_small created created runs run run').1 decides⟩

/-- One point of two, which is enough for a factor of 0: the bucket is downsampled if it is the
last one, and not if it is the first. -/
theorem last_point_decides :
    TwoLevels ⟨1, 10⟩ ⟨2, 20⟩ 4 2 ∧ IsFactor 0 ∧
    SameCount ⟨1, 10⟩ ⟨2, 20⟩ 4 [(4, 6), (6, 7)] [(3, 5), (6, 7)] ∧ ∃ w w₁ w₁',
      @JustCreated comparesNumbers (soleRule [⟨1, 10⟩, ⟨2, 20⟩] ⟨[], 0, .average⟩) "a".toList w ∧
      Yields (@whisperWriteValues comparesNumbers (soleRule [⟨1, 10⟩, ⟨2, 20⟩] ⟨[], 0, .average⟩)
        "a".toList [(4, 6), (6, 7)]) w () w₁ ∧
      Yields (@whisperWriteValues comparesNumbers (soleRule [⟨1, 10⟩, ⟨2, 20⟩] ⟨[], 0, .average⟩)
        "a".toList [(3, 5), (6, 7)]) w () w₁' ∧
      Stored w₁.globals.writes (lowerOf ⟨1, 10⟩ ⟨2, 20⟩) 4 ∧
      ¬ Stored w₁'.globals.writes (lowerOf ⟨1, 10⟩ ⟨2, 20⟩) 4 := by
  have factor : IsFactor 0 := ⟨by decide +kernel, by decide +kernel, by decide +kernel⟩
  have runs : SameCount ⟨1, 10⟩ ⟨2, 20⟩ 4 [(4, 6), (6, 7)] [(3, 5), (6, 7)] :=
    ⟨by decide, by decide, by decide, by decide, by decide, by decide⟩
  refine ⟨twoLevels_small, factor, runs, ?_⟩
  obtain ⟨fd, w, creates, created⟩ := created_small 0
  let : Platform := comparesNumbers
  have finishes := twoLevels_small.run_returns comparesNumbers_exactly factor rfl rfl created
  obtain ⟨w₁, run⟩ := finishes [(4, 6), (6, 7)] (by decide)
  obtain ⟨w₁', run'⟩ := finishes [(3, 5), (6, 7)] (by decide)
  have stored : resultOf (storedAfter (soleRule [⟨1, 10⟩, ⟨2, 20⟩] ⟨[], 0, .average⟩) "a".toList
      [(4, 6), (6, 7)] (lowerOf ⟨1, 10⟩ ⟨2, 20⟩) 4) emptyWorld = some true := by
    decide +kernel
  have missing : resultOf (storedAfter (soleRule [⟨1, 10⟩, ⟨2, 20⟩] ⟨[], 0, .average⟩) "a".toList
      [(3, 5), (6, 7)] (lowerOf ⟨1, 10⟩ ⟨2, 20⟩) 4) emptyWorld = some false := by
    decide +kernel
  exact ⟨w, w₁, w₁', created, run, run', of_decide_eq_true (storedAfter_eq creates run stored),
    of_decide_eq_false (storedAfter_eq creates run' missing)⟩

end Carbond.Whisper
