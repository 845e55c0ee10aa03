import Carbond.Whisper.Create

/-! Writing a point into its archive, and its propagation to the lower-precision archives. -/
namespace Carbond.Whisper
open Bytes Posix Text
variable [Platform]

/-- Where a point goes in an archive whose first slot holds the timestamp `first`. -/
def writeOffset (archive : ArchiveInfo) (timestamp first : UInt32) : Action UInt32 := do
  if first = 0 then return archive.offset
  else
    let timeDistance ← divide32 (timestamp - first) archive.secondsPerPoint
    let into ← modulo64 (timeDistance * 12).toUInt64 (archiveSize archive)
    return (archive.offset.toUInt64 + into).toUInt32

/-- The contents of the file behind a descriptor. -/
def contentsOf (fd : Fd) (w : World Globals) : List UInt8 :=
  match descriptorOf fd w with
  | some (_, d) =>
    match w.nodes d.path with
    | some (.file contents) => contents
    | _ => []
  | none => []

/-- Counts the point for the monitoring thread, and keeps the write in the history. -/
def recordWrite (entry : PointWrite) (globals : Globals) : Globals :=
  { globals with points := globals.points + 1, writes := globals.writes ++ [entry] }

/-- The point is in network order already. -/
def whisperWritePoint (fd : Fd) (archive : ArchiveInfo) (timestamp : UInt32)
    (point : ArchivePoint) : Action Nat := do
  if (← whisperSeek fd archive.offset.toInt32) ≠ exitSuccess then return 1
  else
    match ← whisperReadArchivePoint fd with
    | none => throw .nullDereference
    | some firstArchPt =>
      let target ← writeOffset archive timestamp firstArchPt.timestamp
      match ← lseek fd target.toNat with
      | .error _ => return 1
      | .ok _ =>
        let before := contentsOf fd (← get)
        match ← write fd point.bytes with
        | .error _ => return 1
        | .ok count =>
          if count < whisperPointSize then return 1
          else
            let after := contentsOf fd (← get)
            modify fun w => w.withGlobals
              (recordWrite ⟨archive, timestamp, point, target, before, after⟩ w.globals)
            return 0

/-! ### Propagation -/

/-- Returns the timestamp of the first point of the higher precision archive to aggregate for
the point at `timestamp` in the lower precision archive. -/
def whisperHigherArchiveTimestampStart (timestamp : UInt32) (higher lower : ArchiveInfo) : UInt32 :=
  timestamp - lower.secondsPerPoint + higher.secondsPerPoint

/-- Unknown types, among them last, max and min, leave the value 0.0. -/
def whisperAggregateValues (aggregatedValues : List UInt64) (nbKnownPoints : UInt32)
    (aggregationType : UInt32) : UInt64 :=
  if aggregationType = AggregationType.average.code then
    Platform.divide (aggregatedValues.foldl Platform.add 0) nbKnownPoints
  else if aggregationType = AggregationType.sum.code then aggregatedValues.foldl Platform.add 0
  else 0

/-- An int passed where a size is expected. -/
def sizeOfInt (n : Int32) : Nat := n.toInt64.toUInt64.toNat

/-- An access outside a buffer. C gives it no meaning; here the access has no effect. -/
def noteOverrun : Action Unit := modify fun w => w.withGlobals { w.globals with overrun := true }

/-- The bytes that fall inside the buffer are stored. -/
def storeInside (buffer : List UInt8) (start : Int) (got : List UInt8) : List UInt8 :=
  writeAt buffer start.toNat ((got.drop (-start).toNat).take (buffer.length - start.toNat))

/-- `read(fd, buffer + start, count)`. The results of these reads decide nothing. -/
def readInto (fd : Fd) (buffer : List UInt8) (start : Int) (count : Nat) : Action (List UInt8) := do
  match ← read fd count with
  | .error _ => return buffer
  | .ok got =>
    if got ≠ [] ∧ (start < 0 ∨ buffer.length < start + got.length) then noteOverrun
    return storeInside buffer start got

/-- Reads the interval to aggregate, in one piece or in two. -/
def readInterval (fd : Fd) (higher : ArchiveInfo) (startOffset endOffset : UInt32) :
    Action (List UInt8) := do
  let rdBuf := List.replicate (archiveSize higher).toNat 0
  let _ ← whisperSeek fd startOffset.toInt32
  if startOffset < endOffset then
    readInto fd rdBuf 0 (endOffset - startOffset).toNat
  else
    let rdLen := (archiveOffsetEnd higher - startOffset).toInt32
    let rdBuf ← readInto fd rdBuf 0 (sizeOfInt rdLen)
    let _ ← whisperSeek fd higher.offset.toInt32
    let rdLen2 := (higher.offset - endOffset).toInt32
    readInto fd rdBuf rdLen.toInt (sizeOfInt rdLen2)

/-- The point with this number in the buffer, or past its end. -/
def pointOf (rdBuf : List UInt8) (id : Nat) : Action ArchivePoint := do
  if rdBuf.length < whisperPointSize * (id + 1) then
    noteOverrun
    let (timestamp, value) := Platform.stray id
    return ⟨timestamp, value⟩
  else return pointIn rdBuf (whisperPointSize * id)

/-- The loop over the points read: the values of those that hold the timestamp expected there. -/
def collectKnown (rdBuf : List UInt8) (higher : ArchiveInfo) :
    Nat → Nat → UInt32 → List UInt64 → Action (List UInt64)
  | 0, _, _, known => return known
  | remaining + 1, id, curTimestamp, known => do
    let tmpPoint ← pointOf rdBuf id
    if tmpPoint.timestamp = curTimestamp then
      if higher.points.toNat ≤ known.length then noteOverrun
      collectKnown rdBuf higher remaining (id + 1) (curTimestamp + higher.secondsPerPoint)
        (known ++ [tmpPoint.value])
    else
      collectKnown rdBuf higher remaining (id + 1) (curTimestamp + higher.secondsPerPoint) known

def whisperWritePropagate (fd : Fd) (timestamp : UInt32) (wspMd : Metadata)
    (higher lower : ArchiveInfo) : Action Nat := do
  let _ ← whisperSeek fd higher.offset.toInt32
  match ← whisperReadArchivePoint fd with
  | none => throw .nullDereference
  | some firstHigherPoint =>
    let start := whisperHigherArchiveTimestampStart timestamp higher lower
    let pointsDistance ← divide32 (start - firstHigherPoint.timestamp) higher.secondsPerPoint
    let into ← modulo64 (pointsDistance * 12).toUInt64 (archiveSize higher)
    let higherStartOffset := (higher.offset.toUInt64 + into).toUInt32
    let nbHigherPoints ← divide32 lower.secondsPerPoint higher.secondsPerPoint
    let last ← modulo64 (higherStartOffset + nbHigherPoints * 12).toUInt64 (archiveSize higher)
    let rdBuf ← readInterval fd higher higherStartOffset last.toUInt32
    let known ← collectKnown rdBuf higher nbHigherPoints.toNat 0 start []
    let nbKnownPoints := UInt32.ofNat known.length
    let ratio ← divide32 nbKnownPoints nbHigherPoints
    if Platform.atLeast ratio wspMd.xFilesFactor then
      let newValue := whisperAggregateValues known nbKnownPoints wspMd.aggregationType
      let _ ← whisperWritePoint fd lower timestamp (htonArchivePoint ⟨timestamp, newValue⟩)
      return exitSuccess
    else return exitSuccess

/-- The loop over the lower archives; it ends at the first one that does not divide. -/
def propagateLoop (fd : Fd) (alignedTimestamp : UInt32) (wspMd : Metadata) :
    Nat → Nat → ArchiveInfo → Action Unit
  | 0, _, _ => return ()
  | remaining + 1, archiveId, higher => do
    match ← whisperReadArchiveInfo fd archiveId with
    | none => throw .nullDereference
    | some lower =>
      if lower.secondsPerPoint = 0 then throw .assertionFailed
      else
        let rest ← modulo32 alignedTimestamp lower.secondsPerPoint
        if rest = 0 then
          let _ ← whisperWritePropagate fd alignedTimestamp wspMd higher lower
          propagateLoop fd alignedTimestamp wspMd remaining (archiveId + 1) lower
        else return ()

/-- What `whisper_write_value` does once it has the result of `open` or `whisper_create_file`. -/
def whisperWriteOpened (fd : Fd) (timestamp : UInt32) (value : UInt64) : Action Nat := do
  match ← whisperReadMetadata fd with
  | none => return exitFailure
  | some wspMd =>
    match ← whisperReadArchiveInfo fd 0 with
    | none => return exitFailure
    | some wspArch =>
      let alignedTimestamp := timestamp - (← modulo32 timestamp wspArch.secondsPerPoint)
      let newArchPt := htonArchivePoint ⟨alignedTimestamp, value⟩
      let _ ← whisperWritePoint fd wspArch alignedTimestamp newArchPt
      propagateLoop fd alignedTimestamp wspMd (wspMd.archiveCount.toNat - 1) 1 wspArch
      close fd
      return exitSuccess

def whisperWriteValue (conf : CarbonConf) (metric : CString) (timestamp : UInt32)
    (value : UInt64) : Action Nat := do
  match ← openFile (whisperMetricFilename conf.storageDir metric) false with
  | .ok fd => whisperWriteOpened (some fd) timestamp value
  | .error .enoent =>
    let fd ← whisperCreateFile conf metric
    whisperWriteOpened fd timestamp value
  | .error _ => return exitFailure

end Carbond.Whisper
