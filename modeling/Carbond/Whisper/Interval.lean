import Carbond.Whisper.RingProofs

/-! The interval of the higher archive that is read to aggregate a point of the lower one:
`whisper_write_propagate` up to the end of its loop, and the reads it plans. -/
namespace Carbond.Whisper
open Bytes Posix
variable {w : World Globals} {higher lower : ArchiveInfo}

/-- Where the interval starts in the file, next to this first timestamp. -/
def higherStartOffset (higher lower : ArchiveInfo) (timestamp first : UInt32) : UInt32 :=
  (higher.offset.toUInt64 + ((whisperHigherArchiveTimestampStart timestamp higher lower - first) /
    higher.secondsPerPoint * 12).toUInt64 % archiveSize higher).toUInt32

def nbHigherPoints (higher lower : ArchiveInfo) : UInt32 :=
  lower.secondsPerPoint / higher.secondsPerPoint

/-- Where it ends. Here the offset in the file is taken modulo the size of the archive. -/
def higherEndOffset (higher lower : ArchiveInfo) (start : UInt32) : UInt32 :=
  ((start + nbHigherPoints higher lower * 12).toUInt64 % archiveSize higher).toUInt32

/-- The number of points to aggregate, and the values of those found. -/
def collect [Platform] (fd : Fd) (timestamp : UInt32) (higher lower : ArchiveInfo) :
    Action (UInt32 × List UInt64) := do
  let _ ← whisperSeek fd higher.offset.toInt32
  match ← whisperReadArchivePoint fd with
  | none => throw .nullDereference
  | some firstHigherPoint =>
    let start := whisperHigherArchiveTimestampStart timestamp higher lower
    let pointsDistance ← divide32 (start - firstHigherPoint.timestamp) higher.secondsPerPoint
    let into ← modulo64 (pointsDistance * 12).toUInt64 (archiveSize higher)
    let startOffset := (higher.offset.toUInt64 + into).toUInt32
    let nbHigherPoints ← divide32 lower.secondsPerPoint higher.secondsPerPoint
    let last ← modulo64 (startOffset + nbHigherPoints * 12).toUInt64 (archiveSize higher)
    let rdBuf ← readInterval fd higher startOffset last.toUInt32
    let known ← collectKnown rdBuf higher nbHigherPoints.toNat 0 start []
    return (nbHigherPoints, known)

/-- What is done with the values found. -/
def propagateKnown [Platform] (fd : Fd) (timestamp : UInt32) (wspMd : Metadata)
    (lower : ArchiveInfo) (nbHigherPoints : UInt32) (known : List UInt64) : Action Nat := do
  let nbKnownPoints := UInt32.ofNat known.length
  let ratio ← divide32 nbKnownPoints nbHigherPoints
  if Platform.atLeast ratio wspMd.xFilesFactor then
    let newValue := whisperAggregateValues known nbKnownPoints wspMd.aggregationType
    let _ ← whisperWritePoint fd lower timestamp (htonArchivePoint ⟨timestamp, newValue⟩)
    return exitSuccess
  else return exitSuccess

theorem whisperWritePropagate_eq [Platform] (fd : Fd) (timestamp : UInt32) (wspMd : Metadata)
    (higher lower : ArchiveInfo) : whisperWritePropagate fd timestamp wspMd higher lower = (do
      let (nbHigherPoints, known) ← collect fd timestamp higher lower
      propagateKnown fd timestamp wspMd lower nbHigherPoints known) := by
  rw [whisperWritePropagate, collect, bind_assoc]
  congr 1
  funext _
  rw [bind_assoc]
  congr 1
  funext point
  cases point with
  | none => rfl
  | some firstHigherPoint =>
    simp only [bind_assoc, pure_bind]
    rfl

/-! ### Planned reads -/

/-- A seek and a read, as the source passes them: an int, the place in the buffer, a length. -/
structure PlannedRead where
  seek : Int32
  start : Int
  length : Int
  deriving DecidableEq, Repr

/-- One read, or two around the end of the archive. -/
def readPlan (higher : ArchiveInfo) (startOffset endOffset : UInt32) : List PlannedRead :=
  if startOffset < endOffset then
    [⟨startOffset.toInt32, 0, (endOffset - startOffset).toNat⟩]
  else
    let rdLen := (archiveOffsetEnd higher - startOffset).toInt32
    let rdLen2 := (higher.offset - endOffset).toInt32
    [⟨startOffset.toInt32, 0, rdLen.toInt⟩, ⟨higher.offset.toInt32, rdLen.toInt, rdLen2.toInt⟩]

/-- The reads planned for the point at this timestamp, next to this first timestamp. -/
def plannedReads (higher lower : ArchiveInfo) (timestamp first : UInt32) : List PlannedRead :=
  let start := higherStartOffset higher lower timestamp first
  readPlan higher start (higherEndOffset higher lower start)

/-- A length passed as a size; what is negative becomes huge. -/
def PlannedRead.count (planned : PlannedRead) : ℕ := (planned.length % 2 ^ 64).toNat

def follow (fd : Fd) : List PlannedRead → List UInt8 → Action (List UInt8)
  | [], rdBuf => return rdBuf
  | planned :: rest, rdBuf => do
    let _ ← whisperSeek fd planned.seek
    let rdBuf ← readInto fd rdBuf planned.start planned.count
    follow fd rest rdBuf

theorem sizeOfInt_eq (n : Int32) : sizeOfInt n = (n.toInt % 2 ^ 64).toNat := by
  change n.toInt64.toBitVec.toNat = _
  rw [Int32.toBitVec_toInt64]
  exact BitVec.toNat_ofInt n.toInt

/-- The reads are the planned ones. -/
theorem readInterval_eq_follow (fd : Fd) (higher : ArchiveInfo) (startOffset endOffset : UInt32) :
    readInterval fd higher startOffset endOffset =
      follow fd (readPlan higher startOffset endOffset)
        (List.replicate (archiveSize higher).toNat 0) := by
  rw [readInterval, readPlan]
  split
  · have count : PlannedRead.count ⟨startOffset.toInt32, 0, (endOffset - startOffset).toNat⟩ =
        (endOffset - startOffset).toNat := by
      have small := (endOffset - startOffset).toNat_lt
      simp only [PlannedRead.count]
      omega
    simp only [follow, count, bind_pure]
  · simp only [follow, PlannedRead.count, sizeOfInt_eq, bind_pure]

/-- A propagation next to slot 0 follows the plan. -/
theorem collect_follows [Platform] (opened : Opened w fd path c pos)
    (seekable : higher.offset.toNat < 2 ^ 31) (step : higher.secondsPerPoint ≠ 0)
    (sized : archiveSize higher ≠ 0) (timestamp : UInt32) (lower : ArchiveInfo) :
    ∃ pos', collect (some fd) timestamp higher lower w = (do
      let rdBuf ← follow (some fd) (plannedReads higher lower timestamp (firstTimestamp c higher))
        (List.replicate (archiveSize higher).toNat 0)
      let known ← collectKnown rdBuf higher (nbHigherPoints higher lower).toNat 0
        (whisperHigherArchiveTimestampStart timestamp higher lower) []
      return (nbHigherPoints higher lower, known)) (w.put fd path c pos') := by
  have place := toInt_toInt32 seekable
  have sought := whisperSeek_yields opened higher.offset.toInt32 (by omega)
  rw [place, Int.toNat_natCast] at sought
  obtain ⟨pos₁, read⟩ := whisperReadArchivePoint_yields (opened.moved c higher.offset.toNat)
  rw [World.put_put] at read
  refine ⟨pos₁, (sought.rest_eq _).trans ((read.rest_eq _).trans ?_)⟩
  refine ((divide32_yields _ step).rest_eq _).trans (((modulo64_yields _ sized).rest_eq _).trans ?_)
  refine ((divide32_yields _ step).rest_eq _).trans (((modulo64_yields _ sized).rest_eq _).trans ?_)
  rw [readInterval_eq_follow]
  rfl

/-! ### Offsets as numbers -/

/-- The place in the archive of the first point to aggregate, in 32 bits. -/
def placeOfStart (higher lower : ArchiveInfo) (timestamp first : UInt32) : ℕ :=
  ((timestamp - lower.secondsPerPoint + higher.secondsPerPoint - first) /
    higher.secondsPerPoint * 12).toNat % (higher.points * 12).toNat

theorem placeOfStart_lt_word (higher lower : ArchiveInfo) (timestamp first : UInt32) :
    placeOfStart higher lower timestamp first < 2 ^ 32 :=
  lt_of_le_of_lt (Nat.mod_le _ _) (UInt32.toNat_lt _)

theorem placeOfStart_lt (lower : ArchiveInfo) (timestamp first : UInt32)
    (sized : 0 < (archiveSize higher).toNat) :
    placeOfStart higher lower timestamp first < (archiveSize higher).toNat := by
  rw [archiveSize_toNat] at sized ⊢
  exact Nat.mod_lt _ sized

theorem placeOfStart_inside (addressable : higher.Addressable) (lower : ArchiveInfo)
    (timestamp first : UInt32) :
    placeOfStart higher lower timestamp first < 12 * higher.points.toNat := by
  have slots := addressable.slots
  have size := addressable.archiveSize_eq
  rw [← size]
  exact placeOfStart_lt lower timestamp first (by omega)

/-- An interval that starts at a slot starts at one of the archive. -/
theorem start_lt_points (addressable : higher.Addressable)
    (place : placeOfStart higher lower timestamp first = 12 * start) :
    start < higher.points.toNat := by
  have inside := placeOfStart_inside addressable lower timestamp first
  omega

theorem higherStartOffset_toNat (higher lower : ArchiveInfo) (timestamp first : UInt32) :
    (higherStartOffset higher lower timestamp first).toNat =
      (higher.offset.toNat + placeOfStart higher lower timestamp first) % 2 ^ 32 := by
  have size : (archiveSize higher).toNat = (higher.points * 12).toNat := UInt32.toNat_toUInt64 _
  have small := placeOfStart_lt_word higher lower timestamp first
  have low := higher.offset.toNat_lt
  simp only [higherStartOffset, whisperHigherArchiveTimestampStart, UInt64.toNat_toUInt32,
    UInt64.toNat_add, UInt64.toNat_mod, UInt32.toNat_toUInt64, size]
  rw [← placeOfStart]
  omega

theorem higherEndOffset_toNat (higher lower : ArchiveInfo) (start : UInt32) :
    (higherEndOffset higher lower start).toNat =
      (start.toNat + whisperPointSize * (nbHigherPoints higher lower).toNat) % 2 ^ 32 %
        (archiveSize higher).toNat := by
  have small := (start + nbHigherPoints higher lower * 12).toNat_lt
  have below := Nat.mod_le (start + nbHigherPoints higher lower * 12).toNat (archiveSize higher).toNat
  rw [higherEndOffset, UInt64.toNat_toUInt32, UInt64.toNat_mod, UInt32.toNat_toUInt64,
    Nat.mod_eq_of_lt (by omega), UInt32.toNat_add, UInt32.toNat_mul, whisperPointSize,
    show (12 : UInt32).toNat = 12 from rfl]
  congr 1
  omega

/-- The length of the first of two pieces. -/
theorem rdLen_eq {startOffset : UInt32}
    (starts : startOffset.toNat = higher.offset.toNat + start)
    (inside : start < (archiveSize higher).toNat) :
    (archiveOffsetEnd higher - startOffset).toNat = (archiveSize higher).toNat - start := by
  have small := startOffset.toNat_lt
  have size := archiveSize_lt higher
  rw [UInt32.toNat_sub, archiveOffsetEnd_toNat]
  omega

/-! ### Reads keep the file -/

/-- The file is open with these contents, and these are the writes so far. -/
def Kept (fd : ℕ) (path : Path) (c : List UInt8) (writes : List PointWrite) (w : World Globals) :
    Prop := (∃ pos, Opened w fd path c pos) ∧ w.globals.writes = writes

namespace Kept
variable {fault : Fault → World Globals → Prop}

theorem of_opened (opened : Opened w fd path c pos) : Kept fd path c w.globals.writes w :=
  ⟨⟨pos, opened⟩, rfl⟩

theorem seek (kept : Kept fd path c writes w) (offset : Int32) :
    Ends w (whisperSeek (some fd) offset) (fun _ => Kept fd path c writes) fault := by
  obtain ⟨⟨pos, opened⟩, log⟩ := kept
  by_cases valid : 0 ≤ offset.toInt
  · exact .of_yields (whisperSeek_yields opened offset valid) ⟨⟨_, opened.moved c _⟩, log⟩
  · exact .of_yields (whisperSeek_negative opened (Int.not_le.mp valid)) ⟨⟨pos, opened⟩, log⟩

theorem readArchivePoint (kept : Kept fd path c writes w) :
    Ends w (whisperReadArchivePoint (some fd))
      (fun point w' => point ≠ none ∧ Kept fd path c writes w') fault := by
  obtain ⟨⟨pos, opened⟩, log⟩ := kept
  obtain ⟨pos', read⟩ := whisperReadArchivePoint_yields opened
  exact .of_yields read ⟨Option.some_ne_none _, ⟨pos', opened.moved c pos'⟩, log⟩

theorem writePoint (kept : Kept fd path c writes w) (timestamp : UInt32) (point : ArchivePoint)
    (seekable : archive.offset.toNat < 2 ^ 31)
    (writable : Writable archive (firstTimestamp c archive)) :
    ∃ w', Yields (whisperWritePoint (some fd) archive timestamp point) w 0 w' ∧
      Kept fd path (Whisper.writePoint c archive timestamp point)
        (writes ++ [pointWrite c archive timestamp point]) w' := by
  obtain ⟨⟨pos, opened⟩, rfl⟩ := kept
  obtain ⟨pos', run⟩ := whisperWritePoint_yields opened timestamp point seekable writable
  exact ⟨_, run, ⟨pos', (opened.moved _ pos').withGlobals⟩, rfl⟩

theorem overrun (kept : Kept fd path c writes w) :
    Ends w noteOverrun (fun _ => Kept fd path c writes) fault := by
  obtain ⟨⟨pos, opened⟩, log⟩ := kept
  exact .of_yields (.update _ w) ⟨⟨pos, opened.withGlobals⟩, log⟩

theorem readInto (kept : Kept fd path c writes w) (buffer : List UInt8) (start : Int) (count : ℕ) :
    Ends w (readInto (some fd) buffer start count) (fun _ => Kept fd path c writes) fault := by
  have ⟨⟨pos, opened⟩, log⟩ := kept
  by_cases fits : count ≤ ssizeMax
  · have granted : Ends w (read (some fd) count) (fun got w' => got = .ok (readAt c pos count) ∧
        Kept fd path c writes w') fault :=
      .of_yields (read_yields opened count fits) ⟨rfl, ⟨_, opened.moved c _⟩, log⟩
    refine .bind granted ?_
    rintro got w' ⟨rfl, kept⟩
    dsimp only
    split
    · exact .bind kept.overrun fun _ _ kept => .pure kept
    · exact .pure kept
  · exact .of_yields (.bind (read_too_long opened (Nat.lt_of_not_le fits)) (.pure _ _)) kept

theorem follow (kept : Kept fd path c writes w) (plan : List PlannedRead) (rdBuf : List UInt8) :
    Ends w (follow (some fd) plan rdBuf) (fun _ => Kept fd path c writes) fault := by
  induction plan generalizing w rdBuf with
  | nil => exact .pure kept
  | cons planned rest ih =>
    refine .bind (kept.seek planned.seek) fun _ _ sought => ?_
    exact .bind (sought.readInto rdBuf planned.start planned.count) fun rdBuf _ read => ih read rdBuf

theorem readInterval (kept : Kept fd path c writes w) (higher : ArchiveInfo)
    (startOffset endOffset : UInt32) : Ends w (readInterval (some fd) higher startOffset endOffset)
      (fun _ => Kept fd path c writes) fault := by
  rw [readInterval_eq_follow]
  exact kept.follow _ _

theorem pointOf [Platform] (kept : Kept fd path c writes w) (rdBuf : List UInt8) (id : ℕ) :
    Ends w (pointOf rdBuf id) (fun _ => Kept fd path c writes) fault := by
  unfold Whisper.pointOf
  split
  · exact .bind kept.overrun fun _ _ kept => .pure kept
  · exact .pure kept

theorem collectKnown [Platform] (kept : Kept fd path c writes w) (rdBuf : List UInt8)
    (higher : ArchiveInfo) (remaining id : ℕ) (curTimestamp : UInt32) (known : List UInt64) :
    Ends w (collectKnown rdBuf higher remaining id curTimestamp known)
      (fun found w' => found.length ≤ known.length + remaining ∧ Kept fd path c writes w') fault := by
  induction remaining generalizing w id curTimestamp known with
  | zero => exact .pure ⟨Nat.le_refl _, kept⟩
  | succ remaining ih =>
    have further {w : World Globals} (kept : Kept fd path c writes w) (value : UInt64) :
        Ends w (Whisper.collectKnown rdBuf higher remaining (id + 1)
          (curTimestamp + higher.secondsPerPoint) (known ++ [value]))
          (fun found w' => found.length ≤ known.length + (remaining + 1) ∧
            Kept fd path c writes w') fault := by
      refine (ih kept _ _ _).weaken ?_ fun _ _ stop => stop
      rintro found w' ⟨bound, kept⟩
      rw [List.length_append, List.length_singleton] at bound
      exact ⟨by omega, kept⟩
    refine .bind (kept.pointOf rdBuf id) fun tmpPoint w₁ kept => ?_
    split
    · split
      · exact .bind kept.overrun fun _ _ kept => further kept _
      · exact further kept _
    · exact (ih kept _ _ _).weaken (fun _ _ ⟨bound, kept⟩ => ⟨by omega, kept⟩) fun _ _ stop => stop

theorem divide (kept : Kept fd path c writes w) (a : UInt32) (cause : b = 0 → flaw) :
    Ends w (divide32 a b) (fun q w' => q = a / b ∧ b ≠ 0 ∧ Kept fd path c writes w')
      (fun e w' => e = .divideByZero ∧ flaw ∧ Kept fd path c writes w') := by
  by_cases zero : b = 0
  · rw [divide32, if_pos zero]
    exact .throw ⟨rfl, cause zero, kept⟩
  · exact .of_yields (divide32_yields a zero) ⟨rfl, zero, kept⟩

theorem modulo (kept : Kept fd path c writes w) (a : UInt64) (cause : b = 0 → flaw) :
    Ends w (modulo64 a b) (fun _ w' => b ≠ 0 ∧ Kept fd path c writes w')
      (fun e w' => e = .divideByZero ∧ flaw ∧ Kept fd path c writes w') := by
  by_cases zero : b = 0
  · rw [modulo64, if_pos zero]
    exact .throw ⟨rfl, cause zero, kept⟩
  · exact .of_yields (modulo64_yields a zero) ⟨zero, kept⟩

/-- The first half of a propagation only reads. It finds no more points than there are to find,
or stops at a division by zero. -/
theorem collect [Platform] (kept : Kept fd path c writes w) (timestamp : UInt32)
    (higher lower : ArchiveInfo) : Ends w (collect (some fd) timestamp higher lower)
      (fun found w' => found.1 = nbHigherPoints higher lower ∧
        found.2.length ≤ found.1.toNat ∧ archiveSize higher ≠ 0 ∧ Kept fd path c writes w')
      (fun e w' => e = .divideByZero ∧ (higher.secondsPerPoint = 0 ∨ archiveSize higher = 0) ∧
        Kept fd path c writes w') := by
  refine .bind (kept.seek _) fun _ w₁ kept => ?_
  refine .bind kept.readArchivePoint ?_
  rintro point w₂ ⟨read, kept⟩
  cases point with
  | none => contradiction
  | some firstHigherPoint =>
    refine .bind (kept.divide _ .inl) ?_
    rintro _ w₃ ⟨rfl, _, kept⟩
    refine .bind (kept.modulo _ .inr) ?_
    rintro into w₄ ⟨sized, kept⟩
    refine .bind (kept.divide _ .inl) ?_
    rintro _ w₅ ⟨rfl, _, kept⟩
    refine .bind (kept.modulo _ .inr) ?_
    rintro last w₆ ⟨_, kept⟩
    refine .bind (kept.readInterval _ _ _) fun rdBuf w₇ kept => ?_
    refine .bind (kept.collectKnown _ _ _ _ _ _) ?_
    rintro known w₈ ⟨bound, kept⟩
    refine .pure ⟨rfl, ?_, sized, kept⟩
    rwa [List.length_nil, Nat.zero_add] at bound

end Kept
end Carbond.Whisper
