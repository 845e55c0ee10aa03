import Carbond.Whisper.Read

/-! Where the file of a metric is, and how it is created. -/
namespace Carbond.Whisper
open Bytes Posix Text
variable [Platform]

/-- 0 if the pattern matches, 1 if not, 2 on an error. -/
def whisperPatternMatch (pattern str : CString) : Nat :=
  match Platform.pcre pattern str with
  | .compilationFailed => 2
  | .executed rc =>
    if 0 ≤ rc then 0
    -- PCRE_ERROR_NOMATCH
    else if rc ≠ -1 then 2
    else 1

/-- NULL is the empty list. -/
def whisperFindRetention (metric : CString) : List PatternRetention → List Retention
  | [] => []
  | cur :: next =>
    match whisperPatternMatch cur.strPattern metric with
    | 0 => cur.retentionList
    | 2 => []
    | _ => whisperFindRetention metric next

def whisperFindAggregation (metric : CString) : List PatternAggregation → Option PatternAggregation
  | [] => none
  | agg :: next =>
    match whisperPatternMatch agg.pattern metric with
    | 0 => some agg
    | 2 => none
    | _ => whisperFindAggregation metric next

/-! ### Paths -/

/-- The loop over the components of a name; the last one names the file. -/
def metricPath (tmpDirName : Path) : List CString → Path
  | [] => []
  | [last] => tmpDirName ++ '/' :: last ++ ".wsp".toList
  | last :: next :: rest => metricPath (tmpDirName ++ '/' :: last) (next :: rest)

def whisperMetricFilename (storageDir metric : CString) : Path :=
  metricPath storageDir (strtok '.' metric)

/-- The loop over the components of a name; all but the last one are directories. -/
def componentDirs (tmpDirName : Path) : List CString → List Path
  | [] => []
  | [_] => []
  | last :: next :: rest =>
    (tmpDirName ++ '/' :: last) :: componentDirs (tmpDirName ++ '/' :: last) (next :: rest)

def metricDirs (storageDir metric : CString) : List Path :=
  storageDir :: componentDirs storageDir (strtok '.' metric)

/-- The result of `mkdir` is not looked at. -/
def createDir (dirName : Path) : Action Unit := do
  match ← stat dirName with
  | .error .enoent =>
    let _ ← mkdir dirName
  | .error _ => throw .exited
  | .ok isDir => if ¬ isDir then throw .exited

def createDirs : List Path → Action Unit
  | [] => return ()
  | dirName :: rest => do
    createDir dirName
    createDirs rest

def whisperCreateDirs (storageDir metric : CString) : Action Unit :=
  createDirs (metricDirs storageDir metric)

/-! ### Creation -/

/-- The second loop: the sizes of the archives before `idRet`. -/
def archiveOffsetLoop : List Retention → Nat → UInt32 → Action UInt32
  | _, 0, offset => return offset
  | [], _ + 1, _ => throw .nullDereference
  | cur :: next, idRet + 1, offset => do
    let points ← divide32 cur.timeToStore cur.timePerPoint
    archiveOffsetLoop next idRet (offset + points * 12)

def whisperGetArchiveOffset (retentionList : List Retention) (idRet : Nat) : Action UInt32 :=
  archiveOffsetLoop retentionList idRet (retentionList.foldl (fun offset _ => offset + 12) 16)

def maxRetention (ret : List Retention) : UInt32 :=
  ret.foldl (fun longest cur => if cur.timeToStore > longest then cur.timeToStore else longest) 0

def archiveCount (ret : List Retention) : UInt32 := ret.foldl (fun count _ => count + 1) 0

/-- Writes the archive headers; false when a write fails or is short. -/
def writeArchiveInfos (fd : Fd) (ret : List Retention) : List Retention → Nat → Action Bool
  | [], _ => return true
  | cur :: next, idRet => do
    let nbPoints ← divide32 cur.timeToStore cur.timePerPoint
    let offset ← whisperGetArchiveOffset ret idRet
    let info : ArchiveInfo := ⟨offset, cur.timePerPoint, nbPoints⟩
    match ← write fd (htonArchiveInfo info).bytes with
    | .error _ => return false
    | .ok count =>
      if count < whisperArchiveSize then return false
      else writeArchiveInfos fd ret next (idRet + 1)

/-- Writes the empty points of every archive. The count written is compared with an unsigned
size: -1 is larger than any size, so only a short write is noticed. -/
def writeEmptyArchives (fd : Fd) : List Retention → Action Bool
  | [] => return true
  | cur :: next => do
    let nbPoints ← divide32 cur.timeToStore cur.timePerPoint
    let sizeofArch := (nbPoints * 12).toNat
    match ← write fd (List.replicate sizeofArch 0) with
    | .error _ => writeEmptyArchives fd next
    | .ok count =>
      if count < sizeofArch then return false
      else writeEmptyArchives fd next

/-- The writes of `whisper_create_file` into the file just opened. -/
def writeNewFile (fd : Fd) (ret : List Retention) (agg : PatternAggregation) : Action Fd := do
  let newWspMd : Metadata := ⟨agg.method.code, maxRetention ret, agg.xff, archiveCount ret⟩
  match ← write fd (htonWhisperMetadata newWspMd).bytes with
  | .error _ => return none
  | .ok count =>
    if count < whisperHeaderSize then return none
    else if ← writeArchiveInfos fd ret ret 0 then
      if ← writeEmptyArchives fd ret then return fd else return none
    else return none

/-- The result -1 is `none`. -/
def whisperCreateFile (conf : CarbonConf) (metric : CString) : Action Fd := do
  let ret := whisperFindRetention metric conf.schema
  whisperCreateDirs conf.storageDir metric
  match whisperFindAggregation metric conf.aggregation with
  | none => return none
  | some agg =>
    match ← openFile (whisperMetricFilename conf.storageDir metric) true with
    | .error _ => return none
    | .ok fd => writeNewFile (some fd) ret agg

end Carbond.Whisper
