import Carbond.Bytes.Writes
import Carbond.Whisper.WindowProofs
import Mathlib.Data.List.Nodup

/-! Points of one retention window, written in any order. The base in slot 0 moves when a point
of the window lands there, and the distance of an older point then wraps around. -/
namespace Carbond.Whisper
open Bytes Posix
variable {archive : ArchiveInfo} {points : List (UInt32 × UInt64)}

/-- Points that belong to one retention window, none of them older than the base. -/
structure InWindow (archive : ArchiveInfo) (base : UInt32) (points : List (UInt32 × UInt64)) :
    Prop where
  used : base ≠ 0
  origin : archive.secondsPerPoint.toNat ∣ base.toNat
  aligned : ∀ p ∈ points, archive.secondsPerPoint.toNat ∣ p.1.toNat
  later : ∀ p ∈ points, base.toNat ≤ p.1.toNat
  distinct : (points.map Prod.fst).Nodup
  near : ∀ p ∈ points, ∀ q ∈ points,
    p.1.toNat < q.1.toNat + archive.points.toNat * archive.secondsPerPoint.toNat
  short : ∀ p ∈ points, (p.1.toNat - base.toNat) / archive.secondsPerPoint.toNat * 12 < 2 ^ 32

/-- Any two orders leave the archive with the same contents, whatever it holds besides the
base in slot 0. -/
def OrderIrrelevant (archive : ArchiveInfo) (base : UInt32) (points : List (UInt32 × UInt64)) :
    Prop :=
  ∀ (w : World Globals) (fd : ℕ) (path : Path) (c : List UInt8) (pos : ℕ), Opened w fd path c pos →
    slotPos archive archive.points.toNat ≤ c.length → firstTimestamp c archive = base →
    ∀ first second : List (UInt32 × UInt64), first.Perm points → second.Perm points →
      ∃ w₁ c₁ pos₁ w₂ c₂ pos₂,
        Yields (whisperWritePoints (some fd) archive first) w () w₁ ∧ Opened w₁ fd path c₁ pos₁ ∧
        Yields (whisperWritePoints (some fd) archive second) w () w₂ ∧ Opened w₂ fd path c₂ pos₂ ∧
        archiveBytes c₁ archive = archiveBytes c₂ archive

/-- The distance from the archive offset at which a point `behind` slots older than the point in
slot 0 is written. -/
def lateOffset (archive : ArchiveInfo) (behind : ℕ) : ℕ :=
  (2 ^ 32 / archive.secondsPerPoint.toNat - behind) * 12 % 2 ^ 32 % (12 * archive.points.toNat)

/-- The wrapped distance still leads every late point to its slot. -/
def LatePointsFit (archive : ArchiveInfo) (base : UInt32) (points : List (UInt32 × UInt64)) : Prop :=
  ∀ p ∈ points, base.toNat < p.1.toNat →
    archive.points.toNat * archive.secondsPerPoint.toNat ∣ p.1.toNat - base.toNat →
    ∀ late ∈ points, late.1.toNat < p.1.toNat →
      lateOffset archive ((p.1.toNat - late.1.toNat) / archive.secondsPerPoint.toNat) =
        12 * (archive.points.toNat - (p.1.toNat - late.1.toNat) / archive.secondsPerPoint.toNat)

/-! ### Where points go -/

/-- The position of the slot that belongs to a timestamp. -/
def place (fits : archive.Fits) (base timestamp : UInt32) : ℕ :=
  slotPos archive (fits.shape.slot base.toNat timestamp.toNat)

/-- The timestamp slot 0 holds while points of the window are written. -/
def BaseOf (archive : ArchiveInfo) (base : UInt32) (points : List (UInt32 × UInt64))
    (first : UInt32) : Prop :=
  first = base ∨ base.toNat < first.toNat ∧
    archive.points.toNat * archive.secondsPerPoint.toNat ∣ first.toNat - base.toNat ∧
    ∃ value, (first, value) ∈ points

theorem targetOffset_late (fits : archive.Fits) (used : first ≠ 0)
    (behind : timestamp.toNat < first.toNat)
    (aligned : archive.secondsPerPoint.toNat ∣ first.toNat - timestamp.toNat) :
    (targetOffset archive timestamp first).toNat = archive.offset.toNat +
      lateOffset archive ((first.toNat - timestamp.toNat) / archive.secondsPerPoint.toNat) := by
  obtain ⟨k, distance⟩ := aligned
  have small := first.toNat_lt
  have wrapped : (timestamp - first).toNat = 2 ^ 32 - archive.secondsPerPoint.toNat * k := by
    rw [UInt32.toNat_sub]
    omega
  have slots : (first.toNat - timestamp.toNat) / archive.secondsPerPoint.toNat = k := by
    rw [distance, Nat.mul_div_cancel_left _ fits.step]
  rw [targetOffset_toNat fits.addressable used, wrapped, Nat.sub_mul_div, slots]
  rfl

/-- A point older than one in slot 0 has its slot as many slots before the end of the ring. -/
theorem slot_behind (fits : archive.Fits) (early : base ≤ timestamp) (behind : timestamp < first)
    (near : first < timestamp + fits.shape.span) (wraps : fits.shape.span ∣ first - base)
    (aligned : archive.secondsPerPoint.toNat ∣ first - timestamp) :
    fits.shape.slot base timestamp =
      archive.points.toNat - (first - timestamp) / archive.secondsPerPoint.toNat := by
  obtain ⟨k, distance⟩ := aligned
  obtain ⟨m, spans⟩ := wraps
  have step := fits.step
  have span : fits.shape.span = archive.secondsPerPoint.toNat * archive.points.toNat :=
    Nat.mul_comm _ _
  have positive : 0 < k := by
    rcases Nat.eq_zero_or_pos k with zero | positive
    · subst zero
      omega
    · exact positive
  have inside : k < archive.points.toNat := by
    apply Nat.lt_of_mul_lt_mul_left (a := archive.secondsPerPoint.toNat)
    omega
  cases m with
  | zero => omega
  | succ m =>
    have apart : timestamp - base = archive.secondsPerPoint.toNat *
        (archive.points.toNat * m + (archive.points.toNat - k)) := by
      rw [Nat.mul_add, Nat.mul_sub, ← Nat.mul_assoc, ← span]
      rw [Nat.mul_succ] at spans
      omega
    change (timestamp - base) / archive.secondsPerPoint.toNat % archive.points.toNat = _
    rw [apart, Nat.mul_div_cancel_left _ step, Nat.mul_add_mod, Nat.mod_eq_of_lt (by omega),
      distance, Nat.mul_div_cancel_left _ step]

theorem BaseOf.used (window : InWindow archive base points) (current : BaseOf archive base points first) :
    first ≠ 0 := by
  rcases current with rfl | ⟨newer, _, _⟩
  · exact window.used
  · rintro rfl
    exact Nat.not_lt_zero _ newer

/-- As long as late points fit, every point of the window goes to its own slot. -/
theorem targetOffset_place (fits : archive.Fits) (window : InWindow archive base points)
    (fit : LatePointsFit archive base points) (current : BaseOf archive base points first)
    (member : p ∈ points) : (targetOffset archive p.1 first).toNat = place fits base p.1 := by
  have later := window.later p member
  have used := current.used window
  rcases current with rfl | ⟨newer, wraps, value, stored⟩
  · exact targetOffset_ahead fits used later (window.short p member)
  · have origin : archive.secondsPerPoint.toNat ∣ first.toNat - base.toNat :=
      dvd_trans (Nat.dvd_mul_left _ _) wraps
    rcases Nat.lt_or_ge p.1.toNat first.toNat with behind | ahead
    · have aligned := Nat.dvd_sub (window.aligned _ stored) (window.aligned p member)
      rw [targetOffset_late fits used behind aligned, fit _ stored newer wraps p member behind, place,
        slot_behind fits later behind (window.near _ stored p member) wraps aligned]
      rfl
    · have zero : fits.shape.slot base.toNat first.toNat = 0 :=
        (fits.shape.slot_eq_zero_iff origin).mpr wraps
      have close : (p.1.toNat - first.toNat) / archive.secondsPerPoint.toNat * 12 < 2 ^ 32 :=
        lt_of_le_of_lt (Nat.mul_le_mul_right 12 (Nat.div_le_div_right (by omega)))
          (window.short p member)
      rw [targetOffset_ahead fits used ahead close, place,
        Ring.Shape.slot_rebase zero origin newer.le ahead]

/-! ### All orders agree where late points fit -/

theorem firstTimestamp_congr
    (same : readAt c (slotPos archive 0) whisperPointSize =
      readAt c' (slotPos archive 0) whisperPointSize) :
    firstTimestamp c archive = firstTimestamp c' archive := by
  have slot₀ : archive.offset.toNat = slotPos archive 0 := by simp [slotPos]
  rw [firstTimestamp, firstTimestamp, slot₀, pointIn_congr same]

theorem firstTimestamp_writeAt (fits : archive.Fits)
    (within : slotPos archive archive.points.toNat ≤ c.length) (inside : i < archive.points.toNat) :
    firstTimestamp (writeAt c (slotPos archive i) (htonArchivePoint ⟨timestamp, value⟩).bytes)
      archive = if i = 0 then timestamp else firstTimestamp c archive := by
  have slot₀ : archive.offset.toNat = slotPos archive 0 := by simp [slotPos]
  rw [firstTimestamp, firstTimestamp, slot₀]
  split
  · subst i
    rw [pointIn_writeAt]
  · congr 1
    apply pointIn_congr
    simp only [slotPos] at within ⊢
    apply readAt_writeAt_disjoint
    · rw [whisperPointSize]
      have := fits.slots
      omega
    · rw [whisperPointSize]
      omega

/-- The write of a point into its own slot. -/
def placed (fits : archive.Fits) (base : UInt32) (p : UInt32 × UInt64) : ℕ × List UInt8 :=
  (place fits base p.1, (htonArchivePoint ⟨p.1, p.2⟩).bytes)

theorem writePoints_placed (fits : archive.Fits) (window : InWindow archive base points)
    (fit : LatePointsFit archive base points)
    (within : slotPos archive archive.points.toNat ≤ c.length)
    (current : BaseOf archive base points (firstTimestamp c archive))
    (calls : List (UInt32 × UInt64)) (members : ∀ p ∈ calls, p ∈ points) :
    writePoints archive c calls = writeAll c (calls.map (placed fits base)) := by
  induction calls generalizing c with
  | nil => rfl
  | cons p rest ih =>
    have member := members p List.mem_cons_self
    have target := targetOffset_place fits window fit current member
    have written : writePoint c archive p.1 (htonArchivePoint ⟨p.1, p.2⟩) =
        writeAt c (place fits base p.1) (htonArchivePoint ⟨p.1, p.2⟩).bytes := by
      rw [writePoint, target]
    have origin : archive.secondsPerPoint.toNat ∣ p.1.toNat - base.toNat :=
      Nat.dvd_sub (window.aligned p member) window.origin
    have next : BaseOf archive base points
        (firstTimestamp (writePoint c archive p.1 (htonArchivePoint ⟨p.1, p.2⟩)) archive) := by
      rw [written, place, firstTimestamp_writeAt fits within Ring.Shape.slot_lt]
      split
      · rename_i zero
        have wraps := (fits.shape.slot_eq_zero_iff origin).mp zero
        rcases Nat.eq_or_lt_of_le (window.later p member) with same | newer
        · exact .inl (UInt32.toNat_inj.mp same.symm)
        · exact .inr ⟨newer, wraps, p.2, member⟩
      · exact current
    have run := ih (writePoint_length within) next
      fun q later => members q (List.mem_cons_of_mem _ later)
    rw [writePoints, List.foldl_cons, List.map_cons, writeAll, List.foldl_cons]
    rw [written] at run ⊢
    exact run

theorem placed_inside (fits : archive.Fits)
    (within : slotPos archive archive.points.toNat ≤ c.length) (calls : List (UInt32 × UInt64)) :
    Bytes.Inside c (calls.map (placed fits base)) := by
  intro write member
  obtain ⟨p, _, rfl⟩ := List.mem_map.mp member
  have inside : fits.shape.slot base.toNat p.1.toNat < archive.points.toNat := Ring.Shape.slot_lt
  simp only [placed, place, slotPos, ArchivePoint.bytes_length] at within ⊢
  omega

/-- Different points of the window have different slots. -/
theorem slot_injective (fits : archive.Fits) (window : InWindow archive base points)
    (member : p ∈ points) (member' : q ∈ points) (different : p.1 ≠ q.1) :
    fits.shape.slot base.toNat p.1.toNat ≠ fits.shape.slot base.toNat q.1.toNat := by
  have origin := Nat.dvd_sub (window.aligned p member) window.origin
  have origin' := Nat.dvd_sub (window.aligned q member') window.origin
  have later := window.later p member
  have later' := window.later q member'
  rcases Nat.lt_trichotomy p.1.toNat q.1.toNat with before | same | after
  · exact fits.shape.slot_ne later later' origin origin' before (window.near q member' p member)
  · exact absurd (UInt32.toNat_inj.mp same) different
  · exact (fits.shape.slot_ne later' later origin' origin after
      (window.near p member q member')).symm

theorem placed_apart (fits : archive.Fits) (window : InWindow archive base points)
    (calls : List (UInt32 × UInt64)) (members : ∀ p ∈ calls, p ∈ points) :
    Apart (calls.map (placed fits base)) := by
  intro first known second known' different
  obtain ⟨p, member, rfl⟩ := List.mem_map.mp known
  obtain ⟨q, member', rfl⟩ := List.mem_map.mp known'
  have unequal : p ≠ q := fun same => different (same ▸ rfl)
  have apart : p.1 ≠ q.1 := fun same => unequal
    (List.inj_on_of_nodup_map window.distinct (members p member) (members q member') same)
  have slots := slot_injective fits window (members p member) (members q member') apart
  simp only [placed, place, slotPos, ArchivePoint.bytes_length]
  omega

theorem writePoints_perm (fits : archive.Fits) (window : InWindow archive base points)
    (fit : LatePointsFit archive base points)
    (within : slotPos archive archive.points.toNat ≤ c.length)
    (current : firstTimestamp c archive = base) {first second : List (UInt32 × UInt64)}
    (order : first.Perm points) (order' : second.Perm points) :
    writePoints archive c first = writePoints archive c second := by
  have members : ∀ p ∈ first, p ∈ points := fun p => order.mem_iff.mp
  have members' : ∀ p ∈ second, p ∈ points := fun p => order'.mem_iff.mp
  rw [writePoints_placed fits window fit within (.inl current) first members,
    writePoints_placed fits window fit within (.inl current) second members']
  exact writeAll_perm ((order.trans order'.symm).map _) (placed_inside fits within first)
    (placed_apart fits window first members)

/-! ### Two orders that differ where a late point does not fit -/

theorem InWindow.subset (window : InWindow archive base points) (rest : List (UInt32 × UInt64))
    (members : ∀ p ∈ rest, p ∈ points) (distinct : (rest.map Prod.fst).Nodup) :
    InWindow archive base rest where
  used := window.used
  origin := window.origin
  aligned p member := window.aligned p (members p member)
  later p member := window.later p (members p member)
  distinct := distinct
  near p member q member' := window.near p (members p member) q (members q member')
  short p member := window.short p (members p member)

/-- Contents with the base in slot 0, and with no byte of a given point in one of the slots. -/
def disagreeing (archive : ArchiveInfo) (base : UInt32) (i : ℕ) (data : List UInt8) : List UInt8 :=
  writeAt (writeAt (List.replicate (slotPos archive archive.points.toNat) 0) (slotPos archive 0)
    (htonArchivePoint ⟨base, 0⟩).bytes) (slotPos archive i) (data.map (· + 1))

theorem disagreeing_length (base : UInt32) (inside : i < archive.points.toNat)
    (sized : data.length = whisperPointSize) :
    (disagreeing archive base i data).length = slotPos archive archive.points.toNat := by
  have zeros : (writeAt (List.replicate (slotPos archive archive.points.toNat) 0)
      (slotPos archive 0) (htonArchivePoint ⟨base, 0⟩).bytes).length =
        slotPos archive archive.points.toNat := by
    rw [writeAt_length_within, List.length_replicate]
    simp only [slotPos, ArchivePoint.bytes_length, List.length_replicate]
    omega
  rw [disagreeing, writeAt_length_within, zeros]
  rw [zeros, List.length_map, sized]
  simp only [slotPos, whisperPointSize]
  omega

theorem disagreeing_base (base : UInt32) (data : List UInt8) (inside : i < archive.points.toNat)
    (other : i ≠ 0) : firstTimestamp (disagreeing archive base i data) archive = base := by
  have slot₀ : archive.offset.toNat = slotPos archive 0 := by simp [slotPos]
  have kept : pointIn (disagreeing archive base i data) (slotPos archive 0) = ⟨base, 0⟩ := by
    rw [← pointIn_writeAt (List.replicate (slotPos archive archive.points.toNat) 0)
      (slotPos archive 0) ⟨base, 0⟩]
    apply pointIn_congr
    apply readAt_writeAt_disjoint
    · rw [writeAt_length_within] <;>
        simp only [slotPos, whisperPointSize, List.length_replicate, ArchivePoint.bytes_length] <;>
        omega
    · simp only [slotPos, whisperPointSize]
      omega
  rw [firstTimestamp, slot₀, kept]

/-- A point that misses its slot leaves the slot with a byte that is not its own. -/
theorem misplaced_differs (inside : i < archive.points.toNat) (other : i ≠ 0)
    (within : slotPos archive archive.points.toNat ≤ c.length)
    (sized : data.length = whisperPointSize) (sized₀ : data₀.length = whisperPointSize)
    (stale : readAt c (slotPos archive i) whisperPointSize = data.map (· + 1))
    (missed : o ≠ 12 * i) :
    archiveBytes (writeAt (writeAt c (slotPos archive i) data) (slotPos archive 0) data₀) archive ≠
      archiveBytes (writeAt (writeAt c (slotPos archive 0) data₀) (archive.offset.toNat + o) data)
        archive := by
  intro same
  rw [whisperPointSize] at sized sized₀ stale
  -- The last byte of the slot survives a write before it, the first byte a write behind it.
  obtain ⟨j, small, survives⟩ : ∃ j < 12, 12 * i + j < o ∨ o + 12 ≤ 12 * i + j := by
    rcases Nat.lt_or_gt_of_ne missed with before | behind
    · exact ⟨11, by decide, .inr (by omega)⟩
    · exact ⟨0, by decide, .inl (by omega)⟩
  simp only [slotPos] at within same stale
  have left : (writeAt c (archive.offset.toNat + 12 * i) data).length = c.length :=
    writeAt_length_within (by omega)
  have right : (writeAt c (archive.offset.toNat + 12 * 0) data₀).length = c.length :=
    writeAt_length_within (by omega)
  have byte := getElem?_of_readAt same (i := archive.offset.toNat + 12 * i + j)
    (by omega) (by omega)
  rw [writeAt_getElem?_outside (by omega) (by omega),
    writeAt_getElem?_inside (by omega) (by omega), writeAt_getElem?_outside (by omega) (by omega),
    writeAt_getElem?_outside (by omega) (by omega), Nat.add_sub_cancel_left] at byte
  have old := congrArg (·[j]?) stale
  simp only [readAt_getElem?, if_pos small, ← byte, List.getElem?_map] at old
  rw [List.getElem?_eq_getElem (by omega)] at old
  simp at old

/-- Points of the window leave every slot that is not theirs alone. -/
theorem readAt_writePoints (fits : archive.Fits) (window : InWindow archive base points)
    (fit : LatePointsFit archive base points)
    (within : slotPos archive archive.points.toNat ≤ c.length)
    (current : firstTimestamp c archive = base) (inside : i < archive.points.toNat)
    (apart : ∀ p ∈ points, fits.shape.slot base.toNat p.1.toNat ≠ i) :
    readAt (writePoints archive c points) (slotPos archive i) whisperPointSize =
      readAt c (slotPos archive i) whisperPointSize := by
  rw [writePoints_placed fits window fit within (.inl current) points fun _ => id]
  apply readAt_writeAll (placed_inside fits within points)
  · simp only [slotPos, whisperPointSize] at within ⊢
    omega
  · intro write known
    obtain ⟨p, member, rfl⟩ := List.mem_map.mp known
    have elsewhere := apart p member
    simp only [placed, place, slotPos, whisperPointSize, ArchivePoint.bytes_length]
    omega

theorem writePoints_append (archive : ArchiveInfo) (c : List UInt8)
    (calls later : List (UInt32 × UInt64)) : writePoints archive c (calls ++ later) =
      writePoints archive (writePoints archive c calls) later := List.foldl_append ..

/-- While the base is in slot 0, a point goes to its slot. -/
theorem writePoint_base (fits : archive.Fits) (window : InWindow archive base points)
    (current : firstTimestamp c archive = base) (member : p ∈ points) :
    writePoint c archive p.1 (htonArchivePoint ⟨p.1, p.2⟩) =
      writeAt c (place fits base p.1) (htonArchivePoint ⟨p.1, p.2⟩).bytes := by
  rw [writePoint, current, targetOffset_ahead fits window.used (window.later p member)
    (window.short p member), place]

/-- The late point before and after the point for slot 0, from contents that disagree with it. -/
theorem swapped_pair_differs (fits : archive.Fits) (window : InWindow archive base points)
    (member : p ∈ points) (newer : base.toNat < p.1.toNat)
    (wraps : archive.points.toNat * archive.secondsPerPoint.toNat ∣ p.1.toNat - base.toNat)
    (member' : late ∈ points) (behind : late.1.toNat < p.1.toNat)
    (missed : lateOffset archive ((p.1.toNat - late.1.toNat) / archive.secondsPerPoint.toNat) ≠
      12 * (archive.points.toNat - (p.1.toNat - late.1.toNat) / archive.secondsPerPoint.toNat))
    (within : slotPos archive archive.points.toNat ≤ c.length)
    (current : firstTimestamp c archive = base)
    (stale : readAt c (place fits base late.1) whisperPointSize =
      (htonArchivePoint ⟨late.1, late.2⟩).bytes.map (· + 1)) :
    archiveBytes (writePoints archive c [late, p]) archive ≠
      archiveBytes (writePoints archive c [p, late]) archive := by
  have zero : fits.shape.slot base.toNat p.1.toNat = 0 :=
    (fits.shape.slot_eq_zero_iff (Nat.dvd_sub (window.aligned p member) window.origin)).mpr wraps
  have aligned := Nat.dvd_sub (window.aligned p member) (window.aligned late member')
  have different : late.1 ≠ p.1 := fun same => Nat.lt_irrefl _ (same ▸ behind)
  have inside : fits.shape.slot base.toNat late.1.toNat < archive.points.toNat := Ring.Shape.slot_lt
  have other := zero ▸ slot_injective fits window member' member different
  rw [← slot_behind fits (window.later late member') behind (window.near p member late member') wraps
    aligned] at missed
  have place₀ : place fits base p.1 = slotPos archive 0 := by rw [place, zero]
  have onTime : writePoints archive c [late, p] = writeAt (writeAt c (place fits base late.1)
      (htonArchivePoint ⟨late.1, late.2⟩).bytes) (slotPos archive 0)
        (htonArchivePoint ⟨p.1, p.2⟩).bytes := by
    have unmoved : firstTimestamp (writeAt c (place fits base late.1)
        (htonArchivePoint ⟨late.1, late.2⟩).bytes) archive = base := by
      rw [place, firstTimestamp_writeAt fits within inside, if_neg other, current]
    change writePoint (writePoint c archive late.1 _) archive p.1 _ = _
    rw [writePoint_base fits window current member', writePoint_base fits window unmoved member,
      place₀]
  have tooLate : writePoints archive c [p, late] = writeAt (writeAt c (slotPos archive 0)
      (htonArchivePoint ⟨p.1, p.2⟩).bytes) (archive.offset.toNat +
        lateOffset archive ((p.1.toNat - late.1.toNat) / archive.secondsPerPoint.toNat))
          (htonArchivePoint ⟨late.1, late.2⟩).bytes := by
    have moved : firstTimestamp (writeAt c (slotPos archive 0)
        (htonArchivePoint ⟨p.1, p.2⟩).bytes) archive = p.1 := by
      rw [firstTimestamp_writeAt fits within fits.slots, if_pos rfl]
    have used : p.1 ≠ 0 := by
      intro empty
      rw [empty] at newer
      exact Nat.not_lt_zero _ newer
    change writePoint (writePoint c archive p.1 _) archive late.1 _ = _
    rw [writePoint_base fits window current member, place₀, writePoint, moved,
      targetOffset_late fits used behind aligned]
  rw [onTime, tooLate]
  exact misplaced_differs inside other within (ArchivePoint.bytes_length _)
    (ArchivePoint.bytes_length _) stale missed

theorem exists_orders_differ (fits : archive.Fits) (window : InWindow archive base points)
    (member : p ∈ points) (newer : base.toNat < p.1.toNat)
    (wraps : archive.points.toNat * archive.secondsPerPoint.toNat ∣ p.1.toNat - base.toNat)
    (member' : late ∈ points) (behind : late.1.toNat < p.1.toNat)
    (missed : lateOffset archive ((p.1.toNat - late.1.toNat) / archive.secondsPerPoint.toNat) ≠
      12 * (archive.points.toNat - (p.1.toNat - late.1.toNat) / archive.secondsPerPoint.toNat)) :
    ∃ c first second, slotPos archive archive.points.toNat ≤ c.length ∧
      firstTimestamp c archive = base ∧ first.Perm points ∧ second.Perm points ∧
      archiveBytes (writePoints archive c first) archive ≠
        archiveBytes (writePoints archive c second) archive := by
  have zero : fits.shape.slot base.toNat p.1.toNat = 0 :=
    (fits.shape.slot_eq_zero_iff (Nat.dvd_sub (window.aligned p member) window.origin)).mpr wraps
  have different : late.1 ≠ p.1 := fun same => Nat.lt_irrefl _ (same ▸ behind)
  have unequal : p ≠ late := fun same => different (congrArg Prod.fst same.symm)
  have inside : fits.shape.slot base.toNat late.1.toNat < archive.points.toNat := Ring.Shape.slot_lt
  have other := zero ▸ slot_injective fits window member' member different
  -- All other points come first; their slots are neither slot 0 nor that of the late point.
  have order : points.Perm (late :: p :: (points.erase late).erase p) :=
    (List.perm_cons_erase member').trans
      (.cons late (List.perm_cons_erase ((List.mem_erase_of_ne unequal).mpr member)))
  generalize (points.erase late).erase p = rest at order
  have distinct : ((late :: p :: rest).map Prod.fst).Nodup :=
    (order.map Prod.fst).nodup_iff.mp window.distinct
  simp only [List.map_cons, List.nodup_cons, List.mem_cons, List.mem_map, not_or] at distinct
  obtain ⟨⟨_, notLate⟩, notPoint, restDistinct⟩ := distinct
  have members : ∀ q ∈ rest, q ∈ points := fun q known =>
    order.mem_iff.mpr (List.mem_cons_of_mem _ (List.mem_cons_of_mem _ known))
  have window' := window.subset rest members restDistinct
  have free : ∀ q ∈ rest, fits.shape.slot base.toNat q.1.toNat ≠ 0 := fun q known =>
    zero ▸ slot_injective fits window (members q known) member fun same => notPoint ⟨q, known, same⟩
  have free' : ∀ q ∈ rest, fits.shape.slot base.toNat q.1.toNat ≠
      fits.shape.slot base.toNat late.1.toNat := fun q known =>
    slot_injective fits window (members q known) member' fun same => notLate ⟨q, known, same⟩
  have fit : LatePointsFit archive base rest := fun q known _ wraps' =>
    absurd ((fits.shape.slot_eq_zero_iff
      (Nat.dvd_sub (window'.aligned q known) window.origin)).mpr wraps') (free q known)
  let data := (htonArchivePoint ⟨late.1, late.2⟩).bytes
  have sized : data.length = whisperPointSize := ArchivePoint.bytes_length _
  have length := disagreeing_length base inside sized
  have current := disagreeing_base base data inside other
  refine ⟨_, rest ++ [late, p], rest ++ [p, late], length.ge, current,
    List.perm_append_comm.trans order.symm,
    List.perm_append_comm.trans ((List.Perm.swap late p rest).trans order.symm), ?_⟩
  have start := readAt_writePoints fits window' fit length.ge current fits.slots free
  have stale := readAt_writePoints fits window' fit length.ge current inside free'
  rw [writePoints_append, writePoints_append]
  apply swapped_pair_differs fits window member newer wraps member' behind missed
    (writePoints_length length.ge rest)
  · exact (firstTimestamp_congr start).trans current
  · have written := readAt_writeAt_same (writeAt
      (List.replicate (slotPos archive archive.points.toNat) 0) (slotPos archive 0)
        (htonArchivePoint ⟨base, 0⟩).bytes)
          (slotPos archive (fits.shape.slot base.toNat late.1.toNat)) (data.map (· + 1))
    rw [List.length_map, sized] at written
    exact stale.trans written

/-- The two runs are the only ones, so their contents are compared. -/
theorem OrderIrrelevant.contents (same : OrderIrrelevant archive base points) (fits : archive.Fits)
    (within : slotPos archive archive.points.toNat ≤ c.length)
    (current : firstTimestamp c archive = base) {first second : List (UInt32 × UInt64)}
    (order : first.Perm points) (order' : second.Perm points) :
    archiveBytes (writePoints archive c first) archive =
      archiveBytes (writePoints archive c second) archive := by
  have opened := worldWith_opened [] c
  obtain ⟨w₁, c₁, pos₁, w₂, c₂, pos₂, run, final, run', final', equal⟩ :=
    same _ 0 [] c 0 opened within current first second order order'
  obtain ⟨w₁', pos₁', ran, ended⟩ := whisperWritePoints_yields fits opened first
  obtain ⟨w₂', pos₂', ran', ended'⟩ := whisperWritePoints_yields fits opened second
  obtain ⟨_, rfl⟩ := run.unique ran
  obtain ⟨_, rfl⟩ := run'.unique ran'
  rwa [final.contents_unique ended, final'.contents_unique ended'] at equal

/-- Arrival order does not matter exactly if late points fit. -/
theorem orderIrrelevant_iff (fits : archive.Fits) (window : InWindow archive base points) :
    OrderIrrelevant archive base points ↔ LatePointsFit archive base points := by
  constructor
  · intro same p member newer wraps late member' behind
    by_contra missed
    obtain ⟨c, first, second, within, current, order, order', differ⟩ :=
      exists_orders_differ fits window member newer wraps member' behind missed
    exact differ (same.contents fits within current order order')
  · intro fit w fd path c pos opened within current first second order order'
    obtain ⟨w₁, pos₁, run, final⟩ := whisperWritePoints_yields fits opened first
    obtain ⟨w₂, pos₂, run', final'⟩ := whisperWritePoints_yields fits opened second
    refine ⟨w₁, _, pos₁, w₂, _, pos₂, run, final, run', final', ?_⟩
    rw [writePoints_perm fits window fit within current order order']

/-- Two slots: the wrapped distance happens to fit, and the late point finds its slot. -/
theorem orderIrrelevant_iff_witness : OrderIrrelevant ⟨28, 60, 2⟩ 60 [(180, 1), (120, 2)] := by
  have fits : ArchiveInfo.Fits ⟨28, 60, 2⟩ := ⟨by decide, by decide, by decide⟩
  have window : InWindow ⟨28, 60, 2⟩ 60 [(180, 1), (120, 2)] := by
    constructor <;> decide
  refine (orderIrrelevant_iff fits window).mpr ?_
  unfold LatePointsFit
  decide

/-- Three slots: once 240 is in slot 0, the late point 180 overwrites it. -/
theorem late_point_overwrites_newer :
    ArchiveInfo.Fits ⟨28, 60, 3⟩ ∧ InWindow ⟨28, 60, 3⟩ 60 [(180, 1), (240, 2)] ∧
    (let c := writeAt (List.replicate 64 0) 28 (htonArchivePoint ⟨60, 0⟩).bytes
     (pointIn (writePoints ⟨28, 60, 3⟩ c [(180, 1), (240, 2)]) 28 = ⟨240, 2⟩ ∧
      pointIn (writePoints ⟨28, 60, 3⟩ c [(180, 1), (240, 2)]) 52 = ⟨180, 1⟩) ∧
     pointIn (writePoints ⟨28, 60, 3⟩ c [(240, 2), (180, 1)]) 28 = ⟨180, 1⟩ ∧
     pointIn (writePoints ⟨28, 60, 3⟩ c [(240, 2), (180, 1)]) 52 = ⟨0, 0⟩) ∧
    ¬ OrderIrrelevant ⟨28, 60, 3⟩ 60 [(180, 1), (240, 2)] := by
  have fits : ArchiveInfo.Fits ⟨28, 60, 3⟩ := ⟨by decide, by decide, by decide⟩
  have window : InWindow ⟨28, 60, 3⟩ 60 [(180, 1), (240, 2)] := by
    constructor <;> decide
  refine ⟨fits, window, ?_, ?_⟩
  · decide +kernel
  · intro same
    have equal := same.contents fits
      (c := writeAt (List.replicate 64 0) 28 (htonArchivePoint ⟨60, 0⟩).bytes) (by decide +kernel)
      (by decide +kernel) (.refl _) (.swap (180, 1) (240, 2) [])
    revert equal
    decide +kernel

end Carbond.Whisper
