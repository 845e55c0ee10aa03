import Carbond.Whisper.BucketProofs

/-! Intervals that start inside a slot. What the loop compares with timestamps are then halves of
values, and it finds nothing unless a value happens to look like a timestamp. -/
namespace Carbond.Whisper
open Bytes Posix
variable {w : World Globals} {higher lower archive : ArchiveInfo}

/-- One half of the bits of a value is this timestamp. -/
def Mistakable (timestamp : UInt32) (value : UInt64) : Prop :=
  value.toNat / 2 ^ 32 = timestamp.toNat ∨ value.toNat % 2 ^ 32 = timestamp.toNat

instance (timestamp : UInt32) (value : UInt64) : Decidable (Mistakable timestamp value) :=
  inferInstanceAs (Decidable (_ ∨ _))

/-- No value of the archive can be taken for this timestamp. -/
def Unmistakable (c : List UInt8) (archive : ArchiveInfo) (timestamp : UInt32) : Prop :=
  ∀ i < archive.points.toNat, ¬ Mistakable timestamp (pointIn c (slotPos archive i)).value

/-- The words of the buffer at multiples of 12 come from this place in the slots of the archive,
or were not read. -/
structure Drawn (c : List UInt8) (archive : ArchiveInfo) (phase : ℕ) (rdBuf : List UInt8) :
    Prop where
  length : rdBuf.length = 12 * archive.points.toNat
  words : ∀ q, 12 ∣ q → q + 4 ≤ 12 * archive.points.toNat →
    readAt rdBuf q 4 = List.replicate 4 0 ∨ ∃ p, p % 12 = phase ∧ p + 4 ≤ 12 * archive.points.toNat ∧
      readAt rdBuf q 4 = readAt c (archive.offset.toNat + p) 4

/-! ### Halves of a value -/

/-- The words behind the timestamp of a slot are the halves of its value. -/
theorem value_halves (present : pos + 12 ≤ c.length) :
    (pointIn c pos).value.toNat = (ntohl (wordAt c (pos + 8))).toNat +
      2 ^ 32 * (ntohl (wordAt c (pos + 4))).toNat := by
  have first : (readAt c (pos + 4) 4).length = 4 := by
    rw [readAt_length]
    omega
  have second : (readAt c (pos + 4 + 4) 4).length = 4 := by
    rw [readAt_length]
    omega
  have whole : (readAt c (pos + 4) 8).length = 8 := by
    rw [readAt_length]
    omega
  change (be64toh (doubleWordAt c (pos + 4))).toNat = _
  rw [be64toh_doubleWordAt, ntohl_wordAt, ntohl_wordAt, swap_number whole, swap_number first,
    show pos + 8 = pos + 4 + 4 from rfl, swap_number second, readAt_split c (pos + 4) 4 4,
    List.reverse_append, number_append, List.length_reverse, second]
  rfl

/-! ### Drawn words -/

theorem drawn_zeros (c : List UInt8) (archive : ArchiveInfo) (phase : ℕ) :
    Drawn c archive phase (List.replicate (12 * archive.points.toNat) 0) := by
  refine ⟨List.length_replicate, fun q _ within => .inl ?_⟩
  rw [readAt, List.drop_replicate, List.take_replicate]
  congr 1
  omega

/-- Whole words copied from the archive, those at multiples of 12 from the right place. -/
theorem Drawn.store (drawn : Drawn c archive phase rdBuf) (source : ℕ)
    (within : slotPos archive archive.points.toNat ≤ c.length)
    (words : 4 ∣ target) (words' : 4 ∣ count) (fits : target + count ≤ 12 * archive.points.toNat)
    (fits' : source + count ≤ 12 * archive.points.toNat)
    (shifted : ∀ q, 12 ∣ q → target ≤ q → (source + (q - target)) % 12 = phase) :
    Drawn c archive phase (writeAt rdBuf target (readAt c (archive.offset.toNat + source) count)) := by
  rw [slotPos] at within
  have sized : (readAt c (archive.offset.toNat + source) count).length = count := by
    rw [readAt_length]
    omega
  have length := drawn.length
  refine ⟨?_, fun q multiple inside => ?_⟩
  · rw [writeAt_length_within (by omega), length]
  · by_cases copied : target ≤ q ∧ q + 4 ≤ target + count
    · right
      refine ⟨source + (q - target), shifted q multiple copied.1, by omega, ?_⟩
      obtain ⟨i, rfl⟩ := Nat.exists_eq_add_of_le copied.1
      rw [readAt_writeAt_inside rdBuf target (by omega), readAt_readAt _ _ (by omega),
        Nat.add_sub_cancel_left, Nat.add_assoc]
    · rw [readAt_writeAt_disjoint (by omega) (by omega)]
      exact drawn.words q multiple inside

/-- The interval in the buffer, wherever it starts. -/
theorem readInterval_drawn (fits : archive.Fits) (opened : Opened w fd path c pos)
    (within : slotPos archive archive.points.toNat ≤ c.length) (whole : 4 ∣ archive.offset.toNat)
    (words : 4 ∣ start) (inside : start < 12 * archive.points.toNat)
    (starts : startOffset.toNat = archive.offset.toNat + start) (words' : 4 ∣ endOffset.toNat)
    (stops : endOffset.toNat < 12 * archive.points.toNat) :
    ∃ rdBuf w', Yields (readInterval (some fd) archive startOffset endOffset) w rdBuf w' ∧
      Drawn c archive (start % 12) rdBuf := by
  have bound := fits.bound
  have size := fits.addressable.archiveSize_eq
  have zeros := drawn_zeros c archive (start % 12)
  have room := within
  rw [slotPos] at room
  have place : startOffset.toInt32.toInt = startOffset.toNat := toInt_toInt32 (by omega)
  have sought := whisperSeek_yields opened startOffset.toInt32 (by omega)
  rw [place, Int.toNat_natCast, starts] at sought
  have there := opened.moved c (archive.offset.toNat + start)
  by_cases single : startOffset < endOffset
  · have ahead := UInt32.lt_iff_toNat_lt.mp single
    have length : (endOffset - startOffset).toNat =
        endOffset.toNat - (archive.offset.toNat + start) := by
      rw [UInt32.toNat_sub_of_le _ _ (UInt32.le_of_lt single), starts]
    obtain ⟨w', read, _⟩ := readInto_inside there (List.replicate (12 * archive.points.toNat) 0) 0
      (endOffset - startOffset) (by omega) (by rw [List.length_replicate]; omega)
    refine ⟨_, w', .bind sought ?_, zeros.store start within (Nat.dvd_zero 4)
      (show 4 ∣ (endOffset - startOffset).toNat by omega) (by omega) (by omega) ?_⟩
    · rw [if_pos single, size]
      exact read
    · intro q multiple _
      omega
  · have length : (archiveOffsetEnd archive - startOffset).toNat =
        12 * archive.points.toNat - start := by
      rw [rdLen_eq starts (by omega), size]
    have small : (archiveOffsetEnd archive - startOffset).toNat < 2 ^ 31 := by omega
    obtain ⟨w₁, read, ⟨⟨pos₁, opened₁⟩, _⟩, _⟩ := readInto_inside there
      (List.replicate (12 * archive.points.toNat) 0) 0 (archiveOffsetEnd archive - startOffset)
      (by omega) (by rw [List.length_replicate]; omega)
    have front := zeros.store start within (Nat.dvd_zero 4)
      (show 4 ∣ (archiveOffsetEnd archive - startOffset).toNat by omega) (by omega) (by omega)
      (by intro q multiple _; omega)
    have back := whisperSeek_yields opened₁ archive.offset.toInt32
      (by rw [toInt_toInt32 (by omega)]; omega)
    rw [toInt_toInt32 (by omega), Int.toNat_natCast] at back
    obtain ⟨w₂, reread, _⟩ := readInto_yields (opened₁.moved c archive.offset.toNat)
      (writeAt (List.replicate (12 * archive.points.toNat) 0) 0
        (readAt c (archive.offset.toNat + start) (archiveOffsetEnd archive - startOffset).toNat))
      (archiveOffsetEnd archive - startOffset).toNat
      (sizeOfInt (archive.offset - endOffset).toInt32)
    rw [granted_again (by omega) (by omega), storeInside_eq, front.length, readAt_take, length,
      show 12 * archive.points.toNat - (12 * archive.points.toNat - start) = start by omega] at reread
    rw [length] at front
    have rest := front.store 0 within
      (show 4 ∣ 12 * archive.points.toNat - start by omega)
      (show 4 ∣ min start (archive.offset.toNat - endOffset.toNat) by omega) (by omega) (by omega)
      (by intro q multiple _; omega)
    refine ⟨_, w₂, .bind sought ?_, rest⟩
    rw [if_neg single, size]
    dsimp only
    rw [sizeOfInt_small small, toInt_toInt32 small, length]
    rw [length] at read
    exact .bind read (.bind back reread)

/-! ### The loop -/

/-- The products are made of whole words. -/
theorem placeOfStart_words (addressable : higher.Addressable) (lower : ArchiveInfo)
    (timestamp first : UInt32) : 4 ∣ placeOfStart higher lower timestamp first := by
  rw [placeOfStart, addressable.size, UInt32.toNat_mul, show (12 : UInt32).toNat = 12 from rfl]
  apply (Nat.dvd_mod_iff ⟨3 * higher.points.toNat, by omega⟩).mpr
  exact (Nat.dvd_mod_iff ⟨2 ^ 30, rfl⟩).mpr (Dvd.dvd.mul_left ⟨3, rfl⟩ _)

/-- Behind the timestamp of a slot, there are the halves of its value. -/
theorem Unmistakable.word (clear : Unmistakable c archive timestamp)
    (within : slotPos archive archive.points.toNat ≤ c.length)
    (inside : p + 4 ≤ 12 * archive.points.toNat) (words : 4 ∣ p) (off : ¬ 12 ∣ p) :
    ntohl (wordAt c (archive.offset.toNat + p)) ≠ timestamp := by
  rintro rfl
  rw [slotPos] at within
  obtain ⟨i, place⟩ : ∃ i, p = 12 * i + 4 ∨ p = 12 * i + 8 := ⟨p / 12, by omega⟩
  have halves := value_halves (show slotPos archive i + 12 ≤ c.length by rw [slotPos]; omega)
  have low := (ntohl (wordAt c (slotPos archive i + 8))).toNat_lt
  refine clear i (by omega) ?_
  rw [Mistakable, halves]
  rcases place with rfl | rfl
  · left
    rw [← Nat.add_assoc, ← slotPos]
    omega
  · right
    rw [← Nat.add_assoc, ← slotPos]
    omega

/-- An interval that starts inside a slot does not show the last timestamp of the bucket, unless
half of a value looks like it. -/
theorem Unmistakable.collect [Platform] (clear : Unmistakable c higher timestamp)
    (fits : higher.Fits) (bucket : IsBucket higher lower timestamp count)
    (opened : Opened w fd path c pos) (within : slotPos higher higher.points.toNat ≤ c.length)
    (whole : 4 ∣ higher.offset.toNat)
    (off : ¬ 12 ∣ placeOfStart higher lower timestamp (firstTimestamp c higher))
    (run : Yields (collect (some fd) timestamp higher lower) w (nb, known) w') :
    known.length ≠ count := by
  have bound := fits.bound
  have slots := fits.slots
  have most := bucket.most
  have some := bucket.some
  have size := fits.addressable.archiveSize_eq
  have words := placeOfStart_words fits.addressable lower timestamp (firstTimestamp c higher)
  have inside := placeOfStart_inside fits.addressable lower timestamp (firstTimestamp c higher)
  have starts := higherStartOffset_toNat higher lower timestamp (firstTimestamp c higher)
  rw [Nat.mod_eq_of_lt (by omega)] at starts
  have stops := higherEndOffset_toNat higher lower
    (higherStartOffset higher lower timestamp (firstTimestamp c higher))
  rw [starts, size, bucket.count_eq, whisperPointSize, Nat.mod_eq_of_lt (show higher.offset.toNat +
    placeOfStart higher lower timestamp (firstTimestamp c higher) + 12 * count < 2 ^ 32 by omega)]
    at stops
  have words' : 4 ∣ (higherEndOffset higher lower (higherStartOffset higher lower timestamp
      (firstTimestamp c higher))).toNat := by
    rw [stops]
    exact (Nat.dvd_mod_iff ⟨3 * higher.points.toNat, by omega⟩).mpr (by omega)
  have low := Nat.mod_lt (higher.offset.toNat + placeOfStart higher lower timestamp
    (firstTimestamp c higher) + 12 * count) (show 0 < 12 * higher.points.toNat by omega)
  obtain ⟨rdBuf, w₁, run', drawn⟩ := collect_of_readInterval fits.addressable (by omega) opened
    (by rw [bucket.count_eq]; exact most) fun pos₁ => by
      obtain ⟨rdBuf, w₁, read, drawn⟩ := readInterval_drawn fits (opened.moved c pos₁) within whole
        words (by omega) starts words' (by omega)
      exact ⟨rdBuf, w₁, read, drawn.length, drawn⟩
  obtain ⟨same, _⟩ := run.unique run'
  obtain ⟨_, rfl⟩ := Prod.mk.inj same
  rw [bucket.count_eq]
  intro all
  have shown := List.filterMap_length_eq_length.mp (all.trans List.length_range.symm) (count - 1)
    (List.mem_range.mpr (by omega))
  -- The last point of the bucket is not among what was drawn.
  have expects := bucket.expected_eq (show count - 1 < count by omega)
  rw [bucket.bucketTime_last] at expects
  have here : (pointIn rdBuf (12 * (count - 1))).timestamp = timestamp := by
    by_contra other
    rw [matching, expects, if_neg other] at shown
    contradiction
  change ntohl (wordAt rdBuf (12 * (count - 1))) = timestamp at here
  rcases drawn.words (12 * (count - 1)) (Nat.dvd_mul_right 12 _) (by omega) with
    blank | ⟨p, phase, present, copied⟩
  · rw [wordAt, blank] at here
    exact bucket.nonzero here.symm
  · rw [wordAt, copied] at here
    exact clear.word within present (by omega) (by omega) here

end Carbond.Whisper
