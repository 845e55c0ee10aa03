import Carbond.Whisper.Interval

/-! What the interval looks like once it is in the buffer: the slots from its start to the end of
the archive, and as many from the beginning as happen to be asked for. -/
namespace Carbond.Whisper
open Bytes Posix
variable {w : World Globals} {higher lower : ArchiveInfo}

/-- The bytes asked for at the beginning of the archive, for an interval that ends at slot `stop`;
none if the end computed lies behind the beginning. -/
def readAgain (archive : ArchiveInfo) (stop : ℕ) : ℕ :=
  archive.offset.toNat - slotPos archive stop % 2 ^ 32 % (12 * archive.points.toNat)

/-- The seeks and the first length are proper ints. -/
structure Seekable (archive : ArchiveInfo) (start count : ℕ) : Prop where
  seek : slotPos archive start < 2 ^ 31
  length : slotPos archive (start + count) < 12 * archive.points.toNat ∨
    12 * (archive.points.toNat - start) < 2 ^ 31

/-- The buffer shows these points of the archive, the last ones only as far as they are read. -/
structure Buffered (archive : ArchiveInfo) (c : List UInt8) (start count : ℕ) (rdBuf : List UInt8) :
    Prop where
  length : rdBuf.length = 12 * archive.points.toNat
  front : ∀ j < count, start + j < archive.points.toNat →
    pointIn rdBuf (12 * j) = pointIn c (slotPos archive (start + j))
  again : ∀ j < count, archive.points.toNat ≤ start + j →
    12 * (start + j + 1 - archive.points.toNat) ≤ readAgain archive (start + count) →
      pointIn rdBuf (12 * j) = pointIn c (slotPos archive (start + j - archive.points.toNat))
  blank : ∀ j < count, archive.points.toNat ≤ start + j →
    readAgain archive (start + count) ≤ 12 * (start + j - archive.points.toNat) →
      pointIn rdBuf (12 * j) = ⟨0, 0⟩

/-! ### One read -/

/-- What a read returns: nothing if the kernel refuses the count. -/
def granted (c : List UInt8) (pos count : ℕ) : List UInt8 :=
  if count ≤ ssizeMax then readAt c pos count else []

/-- Some of the bytes do not fall inside the buffer. -/
def Spills (buffer : List UInt8) (start : Int) (got : List UInt8) : Prop :=
  got ≠ [] ∧ (start < 0 ∨ buffer.length < start + got.length)

instance (buffer : List UInt8) (start : Int) (got : List UInt8) : Decidable (Spills buffer start got) :=
  inferInstanceAs (Decidable (_ ∧ _))

theorem storeInside_eq (buffer : List UInt8) (start : ℕ) (got : List UInt8) :
    storeInside buffer start got = writeAt buffer start (got.take (buffer.length - start)) := by
  rw [storeInside, Int.toNat_natCast, show (-(start : Int)).toNat = 0 by omega, List.drop_zero]

theorem readInto_yields (opened : Opened w fd path c pos) (buffer : List UInt8) (start : Int)
    (count : ℕ) : ∃ w', Yields (readInto (some fd) buffer start count) w
        (storeInside buffer start (granted c pos count)) w' ∧
      Kept fd path c w.globals.writes w' ∧
      w'.globals.overrun = (w.globals.overrun || decide (Spills buffer start (granted c pos count))) := by
  by_cases fits : count ≤ ssizeMax
  · have read := read_yields opened count fits
    have there := opened.moved c (pos + (readAt c pos count).length)
    rw [granted, if_pos fits]
    let w₁ := w.put fd path c (pos + (readAt c pos count).length)
    by_cases spills : Spills buffer start (readAt c pos count)
    · refine ⟨w₁.withGlobals { w₁.globals with overrun := true }, .bind read ?_,
        ⟨⟨_, there.withGlobals⟩, rfl⟩, ?_⟩
      · dsimp only
        rw [if_pos (show _ ∧ _ from spills)]
        exact .bind (.update _ _) (.pure _ _)
      · simp [spills]
    · refine ⟨w₁, .bind read ?_, ⟨⟨_, there⟩, rfl⟩, ?_⟩
      · dsimp only
        rw [if_neg (show ¬ (_ ∧ _) from spills)]
        exact .pure _ _
      · simp [spills, w₁]
  · rw [granted, if_neg fits]
    refine ⟨w, ?_, .of_opened opened, ?_⟩
    · have unchanged : storeInside buffer start [] = buffer := by
        rw [storeInside, List.drop_nil, List.take_nil, writeAt_nil]
      rw [unchanged]
      exact .bind (read_too_long opened (Nat.lt_of_not_le fits)) (.pure _ _)
    · simp [Spills]

/-! ### Copied points -/

/-- A slot that was copied whole shows its point. -/
theorem pointIn_copied (buffer c : List UInt8) (target source i : ℕ)
    (within : i + whisperPointSize ≤ count) (present : source + i + whisperPointSize ≤ c.length) :
    pointIn (writeAt buffer target (readAt c source count)) (target + i) =
      pointIn c (source + i) := by
  apply pointIn_congr
  rw [readAt_writeAt_inside buffer target (by rw [readAt_length]; omega),
    readAt_readAt c source within]

/-- Slots copied to the beginning of the buffer. -/
theorem pointIn_front (buffer c : List UInt8) (archive : ArchiveInfo) (start : ℕ)
    (within : j < count) (present : slotPos archive (start + j + 1) ≤ c.length) :
    pointIn (writeAt buffer 0 (readAt c (slotPos archive start) (12 * count))) (12 * j) =
      pointIn c (slotPos archive (start + j)) := by
  have next : slotPos archive start + 12 * j + whisperPointSize = slotPos archive (start + j + 1) := by
    simp only [slotPos, whisperPointSize]
    omega
  have copied := pointIn_copied buffer c 0 (slotPos archive start) (12 * j)
    (show 12 * j + whisperPointSize ≤ 12 * count by rw [whisperPointSize]; omega)
    (by rw [next]; exact present)
  rw [Nat.zero_add] at copied
  rw [copied]
  congr 1
  simp only [slotPos]
  omega

theorem pointIn_elsewhere {buffer data : List UInt8}
    (present : pos + whisperPointSize ≤ buffer.length)
    (apart : pos + whisperPointSize ≤ at' ∨ at' + data.length ≤ pos) :
    pointIn (writeAt buffer at' data) pos = pointIn buffer pos :=
  pointIn_congr (readAt_writeAt_disjoint present apart)

theorem pointIn_fresh (within : pos + whisperPointSize ≤ size) :
    pointIn (List.replicate size 0) pos = ⟨0, 0⟩ := by
  apply pointIn_zeros
  rw [readAt, List.drop_replicate, List.take_replicate]
  congr 1
  omega

/-! ### The two shapes of the interval -/

section
variable {archive : ArchiveInfo} {start count : ℕ}

/-- The end computed lies ahead of the start exactly if it does not reach the size of the archive,
counted from the beginning of the file. -/
theorem start_lt_end_iff (addressable : archive.Addressable) (seek : slotPos archive start < 2 ^ 31)
    (some : 1 ≤ count) (most : count ≤ archive.points.toNat) :
    slotPos archive start <
        slotPos archive (start + count) % 2 ^ 32 % (12 * archive.points.toNat) ↔
      slotPos archive (start + count) < 12 * archive.points.toNat := by
  have bound := addressable.bound
  have slots := addressable.slots
  simp only [slotPos] at seek ⊢
  constructor
  · intro ahead
    by_contra behind
    by_cases fits : archive.offset.toNat + 12 * (start + count) < 2 ^ 32
    · rw [Nat.mod_eq_of_lt fits, Nat.mod_eq_sub_mod (Nat.le_of_not_lt behind)] at ahead
      have less := Nat.mod_le (archive.offset.toNat + 12 * (start + count) -
        12 * archive.points.toNat) (12 * archive.points.toNat)
      omega
    · have less := Nat.mod_le ((archive.offset.toNat + 12 * (start + count)) % 2 ^ 32)
        (12 * archive.points.toNat)
      omega
  · intro before
    rw [Nat.mod_eq_of_lt (by omega : archive.offset.toNat + 12 * (start + count) < 2 ^ 32),
      Nat.mod_eq_of_lt before]
    omega

/-- In one piece, nothing is asked for again. -/
theorem readAgain_single (addressable : archive.Addressable)
    (before : slotPos archive (start + count) < 12 * archive.points.toNat) :
    readAgain archive (start + count) = 0 := by
  have bound := addressable.bound
  rw [readAgain, Nat.mod_eq_of_lt (by omega : slotPos archive (start + count) < 2 ^ 32),
    Nat.mod_eq_of_lt before, slotPos]
  omega

theorem sizeOfInt_small {n : UInt32} (small : n.toNat < 2 ^ 31) :
    sizeOfInt n.toInt32 = n.toNat := by
  rw [sizeOfInt_eq, toInt_toInt32 small]
  omega

theorem sizeOfInt_large {n : UInt32} (large : 2 ^ 31 ≤ n.toNat) :
    ssizeMax < sizeOfInt n.toInt32 := by
  have bound := n.toNat_lt
  rw [sizeOfInt_eq, toInt_toInt32_eq, if_neg (by omega)]
  simp only [ssizeMax]
  omega

theorem granted_small {n : UInt32} (small : n.toNat < 2 ^ 31) :
    granted c pos (sizeOfInt n.toInt32) = readAt c pos n.toNat := by
  rw [sizeOfInt_small small, granted, if_pos]
  simp only [ssizeMax]
  omega

/-- The second length, as the size it is passed as. -/
theorem granted_again (seek : archive.offset.toNat < 2 ^ 31) (small : endOffset.toNat < 2 ^ 31) :
    granted c pos (sizeOfInt (archive.offset - endOffset).toInt32) =
      readAt c pos (archive.offset.toNat - endOffset.toNat) := by
  by_cases behind : endOffset.toNat ≤ archive.offset.toNat
  · have length : (archive.offset - endOffset).toNat = archive.offset.toNat - endOffset.toNat :=
      UInt32.toNat_sub_of_le _ _ (UInt32.le_iff_toNat_le.mpr behind)
    rw [granted_small (by omega), length]
  · have negative : 2 ^ 31 ≤ (archive.offset - endOffset).toNat := by
      rw [UInt32.toNat_sub]
      omega
    rw [granted, if_neg (Nat.not_le.mpr (sizeOfInt_large negative)),
      show archive.offset.toNat - endOffset.toNat = 0 by omega, readAt, List.take_zero]

/-- The interval read in one piece. -/
theorem buffered_single (within : slotPos archive archive.points.toNat ≤ c.length)
    (before : slotPos archive (start + count) < 12 * archive.points.toNat) :
    Buffered archive c start count (writeAt (List.replicate (12 * archive.points.toNat) 0) 0
      (readAt c (slotPos archive start) (12 * count))) := by
  have short : start + count < archive.points.toNat := by
    rw [slotPos] at before
    omega
  simp only [slotPos] at within
  constructor
  · rw [writeAt_length_within, List.length_replicate]
    rw [readAt_length, List.length_replicate]
    omega
  · intro j inside _
    exact pointIn_front _ c archive start inside (by rw [slotPos]; omega)
  · intro j inside behind
    omega
  · intro j inside behind
    omega

/-- The interval read in two pieces. -/
theorem buffered_double (within : slotPos archive archive.points.toNat ≤ c.length)
    (inside : start < archive.points.toNat) (most : count ≤ archive.points.toNat) :
    Buffered archive c start count (writeAt
      (writeAt (List.replicate (12 * archive.points.toNat) 0) 0
        (readAt c (slotPos archive start) (12 * (archive.points.toNat - start))))
      (12 * (archive.points.toNat - start))
      (readAt c archive.offset.toNat (min (12 * start) (readAgain archive (start + count))))) := by
  simp only [slotPos] at within
  have first : (writeAt (List.replicate (12 * archive.points.toNat) 0) 0
      (readAt c (slotPos archive start) (12 * (archive.points.toNat - start)))).length =
        12 * archive.points.toNat := by
    rw [writeAt_length_within, List.length_replicate]
    rw [readAt_length, List.length_replicate]
    omega
  have second : (readAt c archive.offset.toNat
      (min (12 * start) (readAgain archive (start + count)))).length =
        min (12 * start) (readAgain archive (start + count)) := by
    rw [readAt_length]
    omega
  have firstLength : (readAt c (slotPos archive start)
      (12 * (archive.points.toNat - start))).length = 12 * (archive.points.toNat - start) := by
    rw [readAt_length, slotPos]
    omega
  constructor
  · rw [writeAt_length_within, first]
    rw [second, first]
    omega
  · intro j _ front
    rw [pointIn_elsewhere (by rw [first, whisperPointSize]; omega)
      (.inl (by rw [whisperPointSize]; omega))]
    exact pointIn_front _ c archive start (by omega) (by rw [slotPos]; omega)
  · intro j short behind asked
    have copied := pointIn_copied (writeAt (List.replicate (12 * archive.points.toNat) 0) 0
      (readAt c (slotPos archive start) (12 * (archive.points.toNat - start)))) c
      (12 * (archive.points.toNat - start)) archive.offset.toNat
      (12 * (start + j - archive.points.toNat))
      (show _ ≤ min (12 * start) (readAgain archive (start + count)) by rw [whisperPointSize]; omega)
      (by rw [whisperPointSize]; omega)
    refine Eq.trans ?_ copied
    congr 1
    omega
  · intro j short behind unasked
    rw [pointIn_elsewhere (by rw [first, whisperPointSize]; omega) (.inr (by rw [second]; omega)),
      pointIn_elsewhere (by rw [List.length_replicate, whisperPointSize]; omega)
        (.inr (by rw [firstLength]; omega))]
    exact pointIn_fresh (by rw [whisperPointSize]; omega)

/-! ### The interval in the buffer -/

/-- A read that is granted and stored whole. -/
theorem readInto_inside (opened : Opened w fd path c pos) (buffer : List UInt8) (start : ℕ)
    (n : UInt32) (within : pos + n.toNat ≤ c.length)
    (fits : start + n.toNat ≤ buffer.length) :
    ∃ w', Yields (readInto (some fd) buffer start n.toNat) w
        (writeAt buffer start (readAt c pos n.toNat)) w' ∧
      Kept fd path c w.globals.writes w' ∧ w'.globals.overrun = w.globals.overrun := by
  obtain ⟨w', run, kept, flag⟩ := readInto_yields opened buffer start n.toNat
  have small := n.toNat_lt
  have whole : granted c pos n.toNat = readAt c pos n.toNat := by
    rw [granted, if_pos]
    simp only [ssizeMax]
    omega
  have length : (readAt c pos n.toNat).length = n.toNat := by
    rw [readAt_length]
    omega
  rw [whole] at run flag
  rw [storeInside_eq, List.take_of_length_le (by omega)] at run
  refine ⟨w', run, kept, ?_⟩
  have stays : ¬ Spills buffer start (readAt c pos n.toNat) := by
    rintro ⟨_, negative | long⟩
    · omega
    · omega
  rw [flag, decide_eq_false stays, Bool.or_false]

/-- The second piece goes past the end of the buffer exactly if it is longer than what lies in
front of the interval. -/
theorem spills_again_iff (within : slotPos archive archive.points.toNat ≤ c.length)
    (inside : start < archive.points.toNat) (sized : buffer.length = 12 * archive.points.toNat) :
    Spills buffer (12 * (archive.points.toNat - start) : ℕ) (readAt c archive.offset.toNat again) ↔
      12 * start < again := by
  have length := readAt_length c archive.offset.toNat again
  rw [slotPos] at within
  constructor
  · rintro ⟨_, negative | long⟩
    · omega
    · omega
  · intro more
    refine ⟨fun empty => ?_, .inr (by omega)⟩
    rw [empty, List.length_nil] at length
    omega

/-- In one piece, the interval is copied. -/
theorem readInterval_single (addressable : archive.Addressable)
    (opened : Opened w fd path c (slotPos archive start))
    (within : slotPos archive archive.points.toNat ≤ c.length)
    (before : slotPos archive (start + count) < 12 * archive.points.toNat) {n : UInt32}
    (length : n.toNat = 12 * count) :
    ∃ rdBuf w', Yields (readInto (some fd) (List.replicate (12 * archive.points.toNat) 0) 0 n.toNat) w
        rdBuf w' ∧ Buffered archive c start count rdBuf ∧ Kept fd path c w.globals.writes w' ∧
      w'.globals.overrun =
        (w.globals.overrun || decide (12 * start < readAgain archive (start + count))) := by
  have zeros : (List.replicate (12 * archive.points.toNat) (0 : UInt8)).length =
    12 * archive.points.toNat := List.length_replicate
  have room := within
  have end' := before
  simp only [slotPos] at room end'
  obtain ⟨w', read, kept, flag⟩ := readInto_inside opened
    (List.replicate (12 * archive.points.toNat) 0) 0 n (by rw [length, slotPos]; omega)
    (by rw [length, zeros]; omega)
  refine ⟨_, w', read, ?_, kept, ?_⟩
  · rw [length]
    exact buffered_single within before
  · rw [flag, readAgain_single addressable before, decide_eq_false (Nat.not_lt_zero _), Bool.or_false]

/-- In two pieces, the slots up to the end of the archive are copied, and then as much from its
beginning as is asked for. -/
theorem readInterval_double (opened : Opened w fd path c (slotPos archive start))
    (seek : archive.offset.toNat < 2 ^ 31)
    (within : slotPos archive archive.points.toNat ≤ c.length)
    (inside : start < archive.points.toNat) (most : count ≤ archive.points.toNat) {n : UInt32}
    (length : n.toNat = 12 * (archive.points.toNat - start)) (low : endOffset.toNat < 2 ^ 31)
    (stops : endOffset.toNat =
      slotPos archive (start + count) % 2 ^ 32 % (12 * archive.points.toNat)) :
    ∃ rdBuf w', Yields (do
        let rdBuf ← readInto (some fd) (List.replicate (12 * archive.points.toNat) 0) 0 n.toNat
        let _ ← whisperSeek (some fd) archive.offset.toInt32
        readInto (some fd) rdBuf n.toNat (sizeOfInt (archive.offset - endOffset).toInt32)) w rdBuf w' ∧
      Buffered archive c start count rdBuf ∧ Kept fd path c w.globals.writes w' ∧
      w'.globals.overrun =
        (w.globals.overrun || decide (12 * start < readAgain archive (start + count))) := by
  have zeros : (List.replicate (12 * archive.points.toNat) (0 : UInt8)).length =
    12 * archive.points.toNat := List.length_replicate
  obtain ⟨w₁, read, ⟨⟨pos₁, opened₁⟩, log⟩, flag⟩ := readInto_inside opened
    (List.replicate (12 * archive.points.toNat) 0) 0 n
    (by rw [length]; simp only [slotPos] at within ⊢; omega) (by rw [length, zeros]; omega)
  have back := whisperSeek_yields opened₁ archive.offset.toInt32 (by rw [toInt_toInt32 seek]; omega)
  rw [toInt_toInt32 seek, Int.toNat_natCast] at back
  obtain ⟨w₂, reread, kept, flag'⟩ := readInto_yields (opened₁.moved c archive.offset.toNat)
    (writeAt (List.replicate (12 * archive.points.toNat) 0) 0
      (readAt c (slotPos archive start) n.toNat)) n.toNat
    (sizeOfInt (archive.offset - endOffset).toInt32)
  have asked : archive.offset.toNat - endOffset.toNat = readAgain archive (start + count) := by
    rw [stops, readAgain]
  have sized : (writeAt (List.replicate (12 * archive.points.toNat) 0) 0
      (readAt c (slotPos archive start) n.toNat)).length = 12 * archive.points.toNat := by
    rw [writeAt_length_within, zeros]
    rw [readAt_length, zeros, length]
    omega
  rw [granted_again seek low, asked] at reread flag'
  rw [storeInside_eq, sized, readAt_take, length,
    show 12 * archive.points.toNat - 12 * (archive.points.toNat - start) = 12 * start by omega]
    at reread
  refine ⟨_, w₂, .bind read (.bind back ?_), buffered_double within inside most, ?_, ?_⟩
  · rw [length]
    exact reread
  · rw [World.put_globals, log] at kept
    exact kept
  · rw [flag', World.put_globals, flag]
    congr 1
    apply decide_eq_decide.mpr
    rw [length] at sized ⊢
    exact spills_again_iff within inside sized

/-- The interval is in the buffer, and a read went past its end exactly if more is asked for
again than there is in front of the interval. -/
theorem readInterval_buffered (addressable : archive.Addressable) (opened : Opened w fd path c pos)
    (within : slotPos archive archive.points.toNat ≤ c.length)
    (seekable : Seekable archive start count) (inside : start < archive.points.toNat)
    (some : 1 ≤ count) (most : count ≤ archive.points.toNat)
    (starts : startOffset.toNat = slotPos archive start)
    (stops : endOffset.toNat =
      slotPos archive (start + count) % 2 ^ 32 % (12 * archive.points.toNat)) :
    ∃ rdBuf w', Yields (readInterval (.some fd) archive startOffset endOffset) w rdBuf w' ∧
      Buffered archive c start count rdBuf ∧ Kept fd path c w.globals.writes w' ∧
      w'.globals.overrun =
        (w.globals.overrun || decide (12 * start < readAgain archive (start + count))) := by
  have seek := seekable.seek
  have order := start_lt_end_iff addressable seek some most
  rw [← starts, ← stops] at order
  have place : startOffset.toInt32.toInt = startOffset.toNat := toInt_toInt32 (by omega)
  have sought := whisperSeek_yields opened startOffset.toInt32 (by omega)
  rw [place, Int.toNat_natCast, starts] at sought
  have there := opened.moved c (slotPos archive start)
  have size := addressable.archiveSize_eq
  by_cases single : startOffset < endOffset
  · have before := order.mp (UInt32.lt_iff_toNat_lt.mp single)
    have length : (endOffset - startOffset).toNat = 12 * count := by
      have bound := addressable.bound
      rw [UInt32.toNat_sub_of_le _ _ (UInt32.le_of_lt single), stops, starts,
        Nat.mod_eq_of_lt (by omega : slotPos archive (start + count) < 2 ^ 32),
        Nat.mod_eq_of_lt before, slotPos, slotPos]
      omega
    obtain ⟨rdBuf, w', read, buffered, kept, flag⟩ :=
      readInterval_single addressable there within before length
    refine ⟨rdBuf, w', .bind sought ?_, buffered, kept, flag⟩
    rw [if_pos single, size]
    exact read
  · have back := Nat.not_lt.mp fun ahead => single (UInt32.lt_iff_toNat_lt.mpr ahead)
    have short := seekable.length.resolve_left fun before =>
      single (UInt32.lt_iff_toNat_lt.mpr (order.mpr before))
    have length : (archiveOffsetEnd archive - startOffset).toNat =
        12 * (archive.points.toNat - start) := by
      rw [rdLen_eq starts (by rw [size]; omega), size]
      omega
    have small : (archiveOffsetEnd archive - startOffset).toNat < 2 ^ 31 := by omega
    obtain ⟨rdBuf, w', read, buffered, kept, flag⟩ := readInterval_double there
      (by rw [slotPos] at seek; omega) within inside most length (by omega) stops
    refine ⟨rdBuf, w', .bind sought ?_, buffered, kept, flag⟩
    rw [if_neg single, size]
    dsimp only
    rw [sizeOfInt_small small, toInt_toInt32 small]
    exact read

end

/-! ### The loop -/

/-- The timestamps that are aggregated for the point at `timestamp`, in order. -/
def expected (higher lower : ArchiveInfo) (timestamp : UInt32) (j : ℕ) : UInt32 :=
  whisperHigherArchiveTimestampStart timestamp higher lower +
    UInt32.ofNat j * higher.secondsPerPoint

/-- The value of a point of the buffer, if it has the timestamp expected there. -/
def matching (rdBuf : List UInt8) (higher lower : ArchiveInfo) (timestamp : UInt32) (j : ℕ) :
    Option UInt64 :=
  let point := pointIn rdBuf (12 * j)
  if point.timestamp = expected higher lower timestamp j then some point.value else none

theorem expected_succ (higher lower : ArchiveInfo) (timestamp : UInt32) (j : ℕ) :
    expected higher lower timestamp j + higher.secondsPerPoint =
      expected higher lower timestamp (j + 1) := by
  rw [expected, expected, UInt32.ofNat_add, UInt32.add_mul, UInt32.add_assoc]
  congr 2
  exact (UInt32.one_mul _).symm

theorem collectKnown_yields [Platform] (remaining id : ℕ) (known : List UInt64)
    (sized : 12 * (id + remaining) ≤ rdBuf.length)
    (higher lower : ArchiveInfo) (room : known.length + remaining ≤ higher.points.toNat)
    (timestamp : UInt32) (w : World Globals) :
    Yields (collectKnown rdBuf higher remaining id (expected higher lower timestamp id) known) w
      (known ++ (List.range' id remaining).filterMap (matching rdBuf higher lower timestamp)) w := by
  induction remaining generalizing id known with
  | zero =>
    rw [List.range'_zero, List.filterMap_nil, List.append_nil]
    exact .pure _ _
  | succ remaining ih =>
    have point : Yields (pointOf rdBuf id) w (pointIn rdBuf (12 * id)) w := by
      rw [pointOf, whisperPointSize, if_neg (by omega)]
      exact .pure _ _
    refine .bind point ?_
    rw [List.range'_succ, expected_succ]
    by_cases found : (pointIn rdBuf (12 * id)).timestamp = expected higher lower timestamp id
    · have value : matching rdBuf higher lower timestamp id =
          some (pointIn rdBuf (12 * id)).value := if_pos found
      have rest := ih (id + 1) (known ++ [(pointIn rdBuf (12 * id)).value]) (by omega)
        (by rw [List.length_append, List.length_singleton]; omega)
      rw [List.append_assoc, List.singleton_append] at rest
      rw [if_pos found, if_neg (by omega), List.filterMap_cons_some value]
      exact rest
    · have value : matching rdBuf higher lower timestamp id = none := if_neg found
      rw [if_neg found, List.filterMap_cons_none value]
      exact ih (id + 1) _ (by omega) (by omega)

/-- The first half of a propagation, once the interval is in the buffer. -/
theorem collect_of_readInterval [Platform] {shown : List UInt8 → World Globals → Prop}
    (addressable : higher.Addressable) (seek : higher.offset.toNat < 2 ^ 31)
    (opened : Opened w fd path c pos)
    (most : (nbHigherPoints higher lower).toNat ≤ higher.points.toNat)
    (interval : ∀ pos, ∃ rdBuf w', Yields (readInterval (some fd) higher
        (higherStartOffset higher lower timestamp (firstTimestamp c higher))
        (higherEndOffset higher lower
          (higherStartOffset higher lower timestamp (firstTimestamp c higher))))
        (w.put fd path c pos) rdBuf w' ∧ rdBuf.length = 12 * higher.points.toNat ∧ shown rdBuf w') :
    ∃ rdBuf w', Yields (collect (some fd) timestamp higher lower) w (nbHigherPoints higher lower,
        (List.range (nbHigherPoints higher lower).toNat).filterMap
          (matching rdBuf higher lower timestamp)) w' ∧ shown rdBuf w' := by
  obtain ⟨pos₁, follows⟩ := collect_follows opened seek addressable.step_ne_zero
    addressable.archiveSize_ne_zero timestamp lower
  rw [plannedReads, ← readInterval_eq_follow] at follows
  obtain ⟨rdBuf, w', read, length, holds⟩ := interval pos₁
  refine ⟨rdBuf, w', ?_, holds⟩
  have loop := collectKnown_yields (nbHigherPoints higher lower).toNat 0 []
    (by rw [length]; omega) higher lower (by rw [List.length_nil]; omega) timestamp w'
  have begins : expected higher lower timestamp 0 =
      whisperHigherArchiveTimestampStart timestamp higher lower := by
    rw [expected]
    simp
  rw [begins, List.nil_append, ← List.range_eq_range'] at loop
  exact follows.trans (Yields.bind read (.bind loop (.pure _ _)))

/-- The first half of a propagation, when the interval starts at a slot. -/
theorem collect_yields [Platform] (addressable : higher.Addressable) (opened : Opened w fd path c pos)
    (within : slotPos higher higher.points.toNat ≤ c.length)
    (some : 1 ≤ (nbHigherPoints higher lower).toNat)
    (most : (nbHigherPoints higher lower).toNat ≤ higher.points.toNat)
    (place : placeOfStart higher lower timestamp (firstTimestamp c higher) = 12 * start)
    (seekable : Seekable higher start (nbHigherPoints higher lower).toNat) :
    ∃ rdBuf w', Yields (collect (.some fd) timestamp higher lower) w (nbHigherPoints higher lower,
        (List.range (nbHigherPoints higher lower).toNat).filterMap
          (matching rdBuf higher lower timestamp)) w' ∧
      Buffered higher c start (nbHigherPoints higher lower).toNat rdBuf ∧
      Kept fd path c w.globals.writes w' ∧
      w'.globals.overrun = (w.globals.overrun || decide (12 * start <
        readAgain higher (start + (nbHigherPoints higher lower).toNat))) := by
  have seek := seekable.seek
  have size := addressable.archiveSize_eq
  have inside := start_lt_points addressable place
  have starts := higherStartOffset_toNat higher lower timestamp (firstTimestamp c higher)
  rw [place] at starts
  change _ = slotPos higher start % 2 ^ 32 at starts
  rw [Nat.mod_eq_of_lt (by omega)] at starts
  have stops := higherEndOffset_toNat higher lower
    (higherStartOffset higher lower timestamp (firstTimestamp c higher))
  rw [starts, size, slotPos, Nat.add_assoc, whisperPointSize, ← Nat.mul_add] at stops
  refine collect_of_readInterval addressable (by rw [slotPos] at seek; omega) opened most fun pos₁ => ?_
  obtain ⟨rdBuf, w', read, buffered, kept, flag⟩ := readInterval_buffered addressable
    (opened.moved c pos₁) within seekable (by omega) some most starts stops
  exact ⟨rdBuf, w', read, buffered.length, buffered, kept, flag⟩

end Carbond.Whisper
