import Carbond.Whisper.Write

/-! What one point write does to the file: it goes to the offset computed from the timestamp in
slot 0, and nowhere else. -/
namespace Carbond.Whisper
open Bytes Posix
variable {w : World Globals} {archive : ArchiveInfo}

/-- The offset `writeOffset` returns when it returns. -/
def targetOffset (archive : ArchiveInfo) (timestamp first : UInt32) : UInt32 :=
  if first = 0 then archive.offset
  else (archive.offset.toUInt64 +
    ((timestamp - first) / archive.secondsPerPoint * 12).toUInt64 % archiveSize archive).toUInt32

/-- No division by zero stands in the way of a write next to this first timestamp. -/
def Writable (archive : ArchiveInfo) (first : UInt32) : Prop :=
  first = 0 ∨ archive.secondsPerPoint ≠ 0 ∧ archiveSize archive ≠ 0

theorem writeOffset_yields (writable : Writable archive first) :
    Yields (writeOffset archive timestamp first) w (targetOffset archive timestamp first) w := by
  unfold writeOffset targetOffset
  split
  · exact .pure _ _
  · obtain empty | ⟨step, size⟩ := writable
    · contradiction
    · exact .bind (divide32_yields _ step) (.bind (modulo64_yields _ size) (.pure _ _))

theorem writeOffset_unsized (timestamp : UInt32) (step : archive.secondsPerPoint ≠ 0)
    (used : first ≠ 0) (unsized : archiveSize archive = 0) :
    Ends w (writeOffset archive timestamp first) (fun _ _ => False)
      (fun e w' => e = .divideByZero ∧ w'.globals = w.globals) := by
  rw [writeOffset, if_neg used, unsized]
  refine .after (divide32_yields _ step) (.bind ((modulo64_zero _).weaken (fun _ _ => id) ?_) nofun)
  rintro _ _ ⟨zero, rfl⟩
  exact ⟨zero, rfl⟩

theorem targetOffset_empty (timestamp : UInt32) :
    targetOffset archive timestamp 0 = archive.offset := by
  simp [targetOffset]

/-- The distance of any point to slot 0, with the wraps of the source: the subtraction and the
multiplication are 32 bits wide. -/
theorem targetOffset_used (archive : ArchiveInfo) (timestamp : UInt32) (used : first ≠ 0)
    (sized : archive.points * 12 ≠ 0)
    (room : archive.offset.toNat + (archive.points * 12).toNat ≤ 2 ^ 32) :
    (targetOffset archive timestamp first).toNat = archive.offset.toNat +
      (timestamp - first).toNat / archive.secondsPerPoint.toNat * 12 % 2 ^ 32 %
        (archive.points * 12).toNat := by
  have positive : 0 < (archive.points * 12).toNat :=
    Nat.pos_of_ne_zero fun zero => sized (UInt32.toNat_inj.mp zero)
  have into : (timestamp - first).toNat / archive.secondsPerPoint.toNat * 12 % 2 ^ 32 %
      (archive.points * 12).toNat < (archive.points * 12).toNat := Nat.mod_lt _ positive
  rw [targetOffset, if_neg used]
  simp only [UInt64.toNat_toUInt32, UInt64.toNat_add, UInt32.toNat_toUInt64, UInt64.toNat_mod,
    archiveSize_toNat]
  rw [UInt32.toNat_mul ((timestamp - first) / archive.secondsPerPoint) 12, UInt32.toNat_div,
    show (12 : UInt32).toNat = 12 from rfl]
  omega

/-- Points go into their archive or across its end, never in front of it. -/
theorem le_targetOffset (archive : ArchiveInfo) (timestamp first : UInt32)
    (sized : first = 0 ∨ archive.points * 12 ≠ 0)
    (room : archive.offset.toNat + (archive.points * 12).toNat ≤ 2 ^ 32) :
    archive.offset.toNat ≤ (targetOffset archive timestamp first).toNat := by
  by_cases used : first = 0
  · exact Nat.le_of_eq (congrArg UInt32.toNat (if_pos used)).symm
  · rw [targetOffset_used _ _ used (sized.resolve_left used) room]
    exact Nat.le_add_right _ _

theorem contentsOf_opened (opened : Opened w fd path c pos) : contentsOf (some fd) w = c := by
  simp [contentsOf, descriptorOf, opened.descriptor, opened.node]

/-- The timestamp in slot 0. -/
def firstTimestamp (c : List UInt8) (archive : ArchiveInfo) : UInt32 :=
  (pointIn c archive.offset.toNat).timestamp

/-- The contents of the file after a point write. -/
def writePoint (c : List UInt8) (archive : ArchiveInfo) (timestamp : UInt32)
    (point : ArchivePoint) : List UInt8 :=
  writeAt c (targetOffset archive timestamp (firstTimestamp c archive)).toNat point.bytes

def pointWrite (c : List UInt8) (archive : ArchiveInfo) (timestamp : UInt32)
    (point : ArchivePoint) : PointWrite :=
  ⟨archive, timestamp, point, targetOffset archive timestamp (firstTimestamp c archive), c,
    writePoint c archive timestamp point⟩

theorem whisperWritePoint_yields (opened : Opened w fd path c pos) (timestamp : UInt32)
    (point : ArchivePoint) (seekable : archive.offset.toNat < 2 ^ 31)
    (writable : Writable archive (firstTimestamp c archive)) :
    ∃ pos', Yields (whisperWritePoint (some fd) archive timestamp point) w 0
      ((w.put fd path (writePoint c archive timestamp point) pos').withGlobals
        (recordWrite (pointWrite c archive timestamp point) w.globals)) := by
  have place := toInt_toInt32 seekable
  have sought := whisperSeek_yields opened archive.offset.toInt32 (by omega)
  rw [place, Int.toNat_natCast] at sought
  obtain ⟨pos₁, read⟩ := whisperReadArchivePoint_yields (opened.moved c archive.offset.toNat)
  rw [World.put_put] at read
  let target := targetOffset archive timestamp (firstTimestamp c archive)
  have moved := lseek_yields (opened.moved c pos₁) target.toNat (by omega)
  rw [World.put_put, Int.toNat_natCast] at moved
  have there := opened.moved c target.toNat
  have written := write_yields there point.bytes
  rw [World.put_put] at written
  refine ⟨target.toNat + point.bytes.length, ?_⟩
  refine .bind sought (.bind read (.bind (writeOffset_yields writable) (.bind moved
    (.bind (.get _) (.bind written ?_)))))
  simp only [ArchivePoint.bytes_length, whisperPointSize, Nat.lt_irrefl, if_false]
  refine .bind (.get _) (.bind (.update _ _) ?_)
  rw [contentsOf_opened there, contentsOf_opened (Opened.put opened.quiet)]
  exact .pure _ _

/-- From 2 GiB on the seek to the archive is refused, and nothing is written. -/
theorem whisperWritePoint_refused (opened : Opened w fd path c pos) (timestamp : UInt32)
    (point : ArchivePoint) (far : ¬ archive.offset.toNat < 2 ^ 31) :
    Yields (whisperWritePoint (some fd) archive timestamp point) w 1 w :=
  .bind (whisperSeek_negative opened (toInt_toInt32_negative (Nat.le_of_not_lt far))) (.pure _ _)

/-- In an archive of size zero a point can only be written next to an empty one. -/
theorem whisperWritePoint_unsized (opened : Opened w fd path c pos) (timestamp : UInt32)
    (point : ArchivePoint) (seekable : archive.offset.toNat < 2 ^ 31)
    (step : archive.secondsPerPoint ≠ 0) (used : firstTimestamp c archive ≠ 0)
    (unsized : archiveSize archive = 0) :
    Ends w (whisperWritePoint (some fd) archive timestamp point) (fun _ _ => False)
      (fun e w' => e = .divideByZero ∧ w'.globals = w.globals) := by
  have place := toInt_toInt32 seekable
  have sought := whisperSeek_yields opened archive.offset.toInt32 (by omega)
  rw [place, Int.toNat_natCast] at sought
  obtain ⟨pos₁, read⟩ := whisperReadArchivePoint_yields (opened.moved c archive.offset.toNat)
  refine .after sought (.after read (.bind (writeOffset_unsized timestamp step used unsized) ?_))
  exact nofun

/-- The bytes of an archive. -/
def archiveBytes (c : List UInt8) (archive : ArchiveInfo) : List UInt8 :=
  readAt c archive.offset.toNat (12 * archive.points.toNat)

/-- A world with one file, open as descriptor 0. -/
def worldWith (path : Path) (contents : List UInt8) : World Globals where
  nodes := Function.update (fun _ => none) path (some (.file contents))
  descriptors := Function.update (fun _ => none) 0 (some ⟨path, 0⟩)
  nextFd := 1
  outcomes := []
  globals := ⟨0, [], false⟩

theorem worldWith_opened (path : Path) (contents : List UInt8) :
    Opened (worldWith path contents) 0 path contents 0 :=
  ⟨rfl, by simp [worldWith], by simp [worldWith]⟩

end Carbond.Whisper
