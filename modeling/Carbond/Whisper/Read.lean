import Carbond.Whisper.Format

/-! Reading the parts of an open whisper file. -/
namespace Carbond.Whisper
open Bytes Posix

/-- A completed slot write, kept as history only: no function of the daemon reads it. -/
structure PointWrite where
  archive : ArchiveInfo
  timestamp : UInt32
  point : ArchivePoint
  writeOffset : UInt32
  before : List UInt8
  after : List UInt8

/-- The points counter of the monitoring thread. The history of slot writes, and whether memory
outside a buffer was accessed, are kept as history only. -/
structure Globals where
  points : UInt32
  writes : List PointWrite
  overrun : Bool

abbrev Action := Proc Globals

def exitSuccess : Nat := 0
def exitFailure : Nat := 1

/-! ### Checked arithmetic -/

def divide32 (a b : UInt32) : Action UInt32 :=
  if b = 0 then throw .divideByZero else return a / b

def modulo32 (a b : UInt32) : Action UInt32 :=
  if b = 0 then throw .divideByZero else return a % b

def modulo64 (a b : UInt64) : Action UInt64 :=
  if b = 0 then throw .divideByZero else return a % b

/-! ### Readers -/

/-- The offset parameter of the source is an int. -/
def whisperSeek (fd : Fd) (offset : Int32) : Action Nat := do
  match ← lseek fd offset.toInt with
  | .error _ => return exitFailure
  | .ok _ => return exitSuccess

/-- `none` is the NULL of a failed seek or read. -/
def whisperReadMetadata (fd : Fd) : Action (Option Metadata) := do
  if (← whisperSeek fd 0) ≠ exitSuccess then return none
  match ← read fd whisperHeaderSize with
  | .error _ => return none
  | .ok bytes => return some (ntohWhisperMetadata (Metadata.ofBytes bytes))

def whisperReadArchiveInfo (fd : Fd) (archiveId : Nat) : Action (Option ArchiveInfo) := do
  let seekPoint := Int32.ofNat (whisperHeaderSize + archiveId * whisperArchiveSize)
  if (← whisperSeek fd seekPoint) ≠ exitSuccess then return none
  match ← read fd whisperArchiveSize with
  | .error _ => return none
  | .ok bytes => return some (ntohArchiveInfo (ArchiveInfo.ofBytes bytes))

/-- Reads the two fields one after the other, without seeking. -/
def whisperReadArchivePoint (fd : Fd) : Action (Option ArchivePoint) := do
  match ← read fd 4 with
  | .error _ => return none
  | .ok timestamp =>
    match ← read fd 8 with
    | .error _ => return none
    | .ok value =>
      return some (ntohArchivePoint ⟨wordAt timestamp 0, doubleWordAt value 0⟩)

/-! ### What the readers return -/

def metadataIn (contents : List UInt8) : Metadata :=
  ntohWhisperMetadata (Metadata.ofBytes (readAt contents 0 whisperHeaderSize))

def archiveInfoIn (contents : List UInt8) (archiveId : Nat) : ArchiveInfo :=
  ntohArchiveInfo (ArchiveInfo.ofBytes
    (readAt contents (whisperHeaderSize + archiveId * whisperArchiveSize) whisperArchiveSize))

def pointIn (contents : List UInt8) (pos : Nat) : ArchivePoint :=
  ntohArchivePoint ⟨wordAt contents pos, doubleWordAt contents (pos + 4)⟩

theorem readAt_readAt (bytes : List UInt8) (pos : Nat) {inner outer count : Nat}
    (within : inner + count ≤ outer) :
    readAt (readAt bytes pos outer) inner count = readAt bytes (pos + inner) count := by
  apply List.ext_getElem?
  intro i
  simp only [readAt_getElem?]
  split
  · rw [if_pos (by omega), Nat.add_assoc]
  · rfl

theorem wordAt_readAt {bytes : List UInt8} {inner outer : Nat} (within : inner + 4 ≤ outer) :
    wordAt (readAt bytes pos outer) inner = wordAt bytes (pos + inner) := by
  rw [wordAt, readAt_readAt _ _ within, wordAt]

theorem doubleWordAt_readAt {bytes : List UInt8} {inner outer : Nat} (within : inner + 8 ≤ outer) :
    doubleWordAt (readAt bytes pos outer) inner = doubleWordAt bytes (pos + inner) := by
  rw [doubleWordAt, readAt_readAt _ _ within, doubleWordAt]

/-- A point depends on nothing but the twelve bytes of its slot. -/
theorem pointIn_slot (contents : List UInt8) (pos : Nat) : pointIn contents pos =
    ntohArchivePoint (ArchivePoint.ofBytes (readAt contents pos whisperPointSize)) := by
  simp only [pointIn, ArchivePoint.ofBytes, wordAt_readAt (show 0 + 4 ≤ whisperPointSize by decide),
    doubleWordAt_readAt (show 4 + 8 ≤ whisperPointSize by decide), Nat.add_zero]

theorem pointIn_congr {before after : List UInt8}
    (same : readAt before pos whisperPointSize = readAt after pos' whisperPointSize) :
    pointIn before pos = pointIn after pos' := by
  rw [pointIn_slot, pointIn_slot, same]

/-- A point written into a slot is read back from it. -/
theorem pointIn_of_readAt {point : ArchivePoint}
    (read : readAt contents pos whisperPointSize = (htonArchivePoint point).bytes) :
    pointIn contents pos = point := by
  rw [pointIn_slot, read, ArchivePoint.ofBytes_bytes, ntoh_hton_archivePoint]

theorem pointIn_writeAt (contents : List UInt8) (pos : Nat) (point : ArchivePoint) :
    pointIn (writeAt contents pos (htonArchivePoint point).bytes) pos = point := by
  apply pointIn_of_readAt
  have read := readAt_writeAt_same contents pos (htonArchivePoint point).bytes
  rwa [ArchivePoint.bytes_length] at read

/-- Zeroed slots read as the empty point. -/
theorem pointIn_zeros
    (zeros : readAt contents pos whisperPointSize = List.replicate whisperPointSize 0) :
    pointIn contents pos = ⟨0, 0⟩ := by
  rw [pointIn_slot, zeros]
  decide

/-! ### Successful readers -/

variable {w : World Globals}

theorem divide32_yields (a : UInt32) (nonzero : b ≠ 0) : Yields (divide32 a b) w (a / b) w := by
  rw [divide32, if_neg nonzero]
  exact .pure _ _

theorem modulo32_yields (a : UInt32) (nonzero : b ≠ 0) : Yields (modulo32 a b) w (a % b) w := by
  rw [modulo32, if_neg nonzero]
  exact .pure _ _

theorem modulo64_yields (a : UInt64) (nonzero : b ≠ 0) : Yields (modulo64 a b) w (a % b) w := by
  rw [modulo64, if_neg nonzero]
  exact .pure _ _

theorem divide32_zero (a : UInt32) : Ends w (divide32 a 0) (fun _ _ => False)
    (fun e w' => e = .divideByZero ∧ w' = w) := by
  rw [divide32, if_pos rfl]
  exact .throw ⟨rfl, rfl⟩

theorem modulo64_zero (a : UInt64) : Ends w (modulo64 a 0) (fun _ _ => False)
    (fun e w' => e = .divideByZero ∧ w' = w) := by
  rw [modulo64, if_pos rfl]
  exact .throw ⟨rfl, rfl⟩

/-- The int that the bits of an unsigned number stand for. -/
theorem toInt_toInt32_eq (n : UInt32) : n.toInt32.toInt =
    if n.toNat < 2 ^ 31 then (n.toNat : Int) else (n.toNat : Int) - 2 ^ 32 := by
  change n.toBitVec.toInt = _
  rw [BitVec.toInt_eq_toNat_cond]
  change (if 2 * n.toNat < 2 ^ 32 then (n.toNat : Int) else _) = _
  split
  · rw [if_pos (by omega)]
  · rw [if_neg (by omega)]
    rfl

theorem toInt_toInt32 {offset : UInt32} (fits : offset.toNat < 2 ^ 31) :
    offset.toInt32.toInt = offset.toNat := by
  rw [toInt_toInt32_eq, if_pos fits]

theorem toInt_toInt32_negative {offset : UInt32} (large : 2 ^ 31 ≤ offset.toNat) :
    offset.toInt32.toInt < 0 := by
  have small := offset.toNat_lt
  rw [toInt_toInt32_eq, if_neg (by omega)]
  omega

theorem whisperSeek_yields (opened : Opened w fd path c pos) (offset : Int32)
    (valid : 0 ≤ offset.toInt) :
    Yields (whisperSeek (some fd) offset) w exitSuccess (w.put fd path c offset.toInt.toNat) :=
  .bind (lseek_yields opened _ valid) (.pure _ _)

theorem whisperSeek_negative (opened : Opened w fd path c pos) (negative : offset.toInt < 0) :
    Yields (whisperSeek (some fd) offset) w exitFailure w :=
  .bind (lseek_negative opened negative) (.pure _ _)

theorem whisperReadMetadata_yields (opened : Opened w fd path c pos) :
    ∃ pos', Yields (whisperReadMetadata (some fd)) w (some (metadataIn c)) (w.put fd path c pos') := by
  have sought := whisperSeek_yields opened 0 (by decide)
  have read := read_yields (opened.moved c 0) whisperHeaderSize (by decide)
  rw [World.put_put] at read
  exact ⟨_, .bind sought (.bind read (.pure _ _))⟩

theorem whisperReadArchiveInfo_yields (opened : Opened w fd path c pos) (archiveId : ℕ)
    (fits : whisperHeaderSize + archiveId * whisperArchiveSize < 2 ^ 31) :
    ∃ pos', Yields (whisperReadArchiveInfo (some fd) archiveId) w
      (some (archiveInfoIn c archiveId)) (w.put fd path c pos') := by
  have place := Int32.toInt_ofNat_of_lt fits
  have sought := whisperSeek_yields opened
    (Int32.ofNat (whisperHeaderSize + archiveId * whisperArchiveSize)) (by omega)
  rw [place, Int.toNat_natCast] at sought
  have read := read_yields (opened.moved c (whisperHeaderSize + archiveId * whisperArchiveSize))
    whisperArchiveSize (by decide)
  rw [World.put_put] at read
  exact ⟨_, .bind sought (.bind read (.pure _ _))⟩

/-- Between 2 and 4 GiB the int offset of the source is negative. -/
theorem whisperReadArchiveInfo_negative (opened : Opened w fd path c pos)
    (far : 2 ^ 31 ≤ whisperHeaderSize + archiveId * whisperArchiveSize)
    (word : whisperHeaderSize + archiveId * whisperArchiveSize < 2 ^ 32) :
    Yields (whisperReadArchiveInfo (some fd) archiveId) w none w := by
  have negative : (Int32.ofNat (whisperHeaderSize + archiveId * whisperArchiveSize)).toInt < 0 := by
    change (UInt32.ofNat _).toInt32.toInt < 0
    apply toInt_toInt32_negative
    rwa [UInt32.toNat_ofNat', Nat.mod_eq_of_lt word]
  exact .bind (whisperSeek_negative opened negative) (.pure _ _)

theorem whisperReadArchivePoint_yields (opened : Opened w fd path c pos) :
    ∃ pos', Yields (whisperReadArchivePoint (some fd)) w (some (pointIn c pos))
      (w.put fd path c pos') := by
  have first := read_yields opened 4 (by decide)
  have second := read_yields (opened.moved c (pos + (readAt c pos 4).length)) 8 (by decide)
  rw [World.put_put] at second
  -- A short first read has met the end of the file, and so does the second.
  have value : readAt c (pos + (readAt c pos 4).length) 8 = readAt c (pos + 4) 8 := by
    rw [readAt_length]
    by_cases short : c.length < pos + 4
    · rw [readAt_past (by omega), readAt_past (by omega)]
    · rw [show min 4 (c.length - pos) = 4 by omega]
  have same : ntohArchivePoint ⟨wordAt (readAt c pos 4) 0,
      doubleWordAt (readAt c (pos + (readAt c pos 4).length) 8) 0⟩ = pointIn c pos := by
    rw [value, wordAt_readAt (by decide), doubleWordAt_readAt (by decide)]
    rfl
  rw [← same]
  exact ⟨_, .bind first (.bind second (.pure _ _))⟩

end Carbond.Whisper
