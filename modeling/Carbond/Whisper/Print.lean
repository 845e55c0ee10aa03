import Carbond.Posix.Parts
import Carbond.Whisper.HeaderProofs

/-! Printing a whisper file, and what its contents say. -/
namespace Carbond.Whisper
open Bytes Posix Text
/-- The lines printed. -/
inductive Printed where
  | file (filename : CString)
  | metadata (wspMd : Metadata)
  | archive (archiveId : ℕ) (archInfo : ArchiveInfo)
  | point (pointId : ℕ) (loopOffset : UInt32) (archPt : ArchivePoint)
  deriving DecidableEq

/-- A program that prints. -/
abbrev Printing := EStateM Fault (World Globals × List Printed)

def print (line : Printed) : Printing Unit := onSecond (modify (· ++ [line]))

/-- The loop over the points of an archive, which are read one after the other. -/
def printPoints (fd : Fd) : ℕ → ℕ → UInt32 → Printing Unit
  | 0, _, _ => return ()
  | remaining + 1, pointId, loopOffset => do
    match ← onFirst (whisperReadArchivePoint fd) with
    | none => throw .nullDereference
    | some archPt =>
      print (.point pointId loopOffset archPt)
      printPoints fd remaining (pointId + 1) (loopOffset + UInt32.ofNat whisperPointSize)

/-- A failed `lseek` is only reported. -/
def printArchives (fd : Fd) : ℕ → ℕ → Printing Unit
  | 0, _ => return ()
  | remaining + 1, archiveId => do
    match ← onFirst (whisperReadArchiveInfo fd archiveId) with
    | none => throw .nullDereference
    | some archInfo =>
      print (.archive archiveId archInfo)
      let _ ← onFirst (lseek fd archInfo.offset.toNat)
      printPoints fd archInfo.points.toNat 0 archInfo.offset
      printArchives fd remaining (archiveId + 1)

/-- The result of `open` is not looked at. -/
def whisperPrintFile (filename : CString) : Printing Unit := do
  let fd := (← onFirst (openFile filename false)).toOption
  let wspMd ← onFirst (whisperReadMetadata fd)
  print (.file filename)
  match wspMd with
  | none => throw .nullDereference
  | some wspMd =>
    print (.metadata wspMd)
    printArchives fd wspMd.archiveCount.toNat 0
    onFirst (close fd)

/-! ### What a file says -/

/-- The points of an archive, each at its slot. -/
def pointLines (c : List UInt8) (archive : ArchiveInfo) : List Printed :=
  (List.range archive.points.toNat).map fun i =>
    .point i (archive.offset + UInt32.ofNat (whisperPointSize * i)) (pointIn c (slotPos archive i))

def archiveLines (c : List UInt8) (k : ℕ) : List Printed :=
  .archive k (archiveInfoIn c k) :: pointLines c (archiveInfoIn c k)

def linesOf (filename : CString) (c : List UInt8) : List Printed :=
  .file filename :: .metadata (metadataIn c) :: (List.range (archivesOf c)).flatMap (archiveLines c)

end Carbond.Whisper
