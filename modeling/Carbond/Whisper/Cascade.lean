import Carbond.Posix.Noted
import Carbond.Whisper.CreateProofs
import Carbond.Whisper.HeaderProofs

/-! The propagations of a call of `whisper_write_value`, noted as the loop over the lower archives
makes them, and the scan of all archives they are compared with. -/
namespace Carbond.Whisper
open Bytes Posix Text
variable {w : World Globals} {c : List UInt8} {fd : ℕ} {path : Path}

/-! ### The loop with its calls noted -/

/-- A call of `whisper_write_propagate`. -/
structure Propagation where
  archiveId : ℕ
  timestamp : UInt32
  higher : ArchiveInfo
  lower : ArchiveInfo
  deriving DecidableEq, Repr

abbrev NotedAction := Noted Fault (World Globals) Propagation

section
variable [Platform]

def propagateLoopNoted (fd : Fd) (alignedTimestamp : UInt32) (wspMd : Metadata) :
    ℕ → ℕ → ArchiveInfo → NotedAction Unit
  | 0, _, _ => return ()
  | remaining + 1, archiveId, higher => do
    match ← quietly (whisperReadArchiveInfo fd archiveId) with
    | none => throw .nullDereference
    | some lower =>
      if lower.secondsPerPoint = 0 then throw .assertionFailed
      else
        let rest ← quietly (modulo32 alignedTimestamp lower.secondsPerPoint)
        if rest = 0 then
          note ⟨archiveId, alignedTimestamp, higher, lower⟩
          let _ ← quietly (whisperWritePropagate fd alignedTimestamp wspMd higher lower)
          propagateLoopNoted fd alignedTimestamp wspMd remaining (archiveId + 1) lower
        else return ()

def whisperWriteOpenedNoted (fd : Fd) (timestamp : UInt32) (value : UInt64) : NotedAction ℕ := do
  match ← quietly (whisperReadMetadata fd) with
  | none => return exitFailure
  | some wspMd =>
    match ← quietly (whisperReadArchiveInfo fd 0) with
    | none => return exitFailure
    | some wspArch =>
      let rest ← quietly (modulo32 timestamp wspArch.secondsPerPoint)
      let alignedTimestamp := timestamp - rest
      let newArchPt := htonArchivePoint ⟨alignedTimestamp, value⟩
      let _ ← quietly (whisperWritePoint fd wspArch alignedTimestamp newArchPt)
      propagateLoopNoted fd alignedTimestamp wspMd (wspMd.archiveCount.toNat - 1) 1 wspArch
      quietly (close fd)
      return exitSuccess

def whisperWriteValueNoted (conf : CarbonConf) (metric : CString) (timestamp : UInt32)
    (value : UInt64) : NotedAction ℕ := do
  match ← quietly (openFile (whisperMetricFilename conf.storageDir metric) false) with
  | .ok fd => whisperWriteOpenedNoted (some fd) timestamp value
  | .error .enoent =>
    let fd ← quietly (whisperCreateFile conf metric)
    whisperWriteOpenedNoted fd timestamp value
  | .error _ => return exitFailure

theorem propagateLoopNoted_annotates (fd : Fd) (alignedTimestamp : UInt32) (wspMd : Metadata)
    (remaining archiveId : ℕ) (higher : ArchiveInfo) :
    Annotates (propagateLoopNoted fd alignedTimestamp wspMd remaining archiveId higher)
      (propagateLoop fd alignedTimestamp wspMd remaining archiveId higher) := by
  induction remaining generalizing archiveId higher with
  | zero => exact .pure ()
  | succ remaining ih =>
    refine .bind (.quietly _) fun info => ?_
    cases info with
    | none => exact .throw _
    | some lower =>
      dsimp only
      split
      · exact .throw _
      · refine .bind (.quietly _) fun rest => ?_
        split
        · exact .note (.bind (.quietly _) fun _ => ih _ _) _
        · exact .pure ()

theorem whisperWriteOpenedNoted_annotates (fd : Fd) (timestamp : UInt32) (value : UInt64) :
    Annotates (whisperWriteOpenedNoted fd timestamp value)
      (whisperWriteOpened fd timestamp value) := by
  refine .bind (.quietly _) fun metadata => ?_
  cases metadata with
  | none => exact .pure _
  | some wspMd =>
    refine .bind (.quietly _) fun info => ?_
    cases info with
    | none => exact .pure _
    | some wspArch =>
      refine .bind (.quietly _) fun rest => .bind (.quietly _) fun _ => ?_
      exact .bind (propagateLoopNoted_annotates _ _ _ _ _ _) fun _ =>
        .bind (.quietly _) fun _ => .pure _

theorem whisperWriteValueNoted_annotates (conf : CarbonConf) (metric : CString)
    (timestamp : UInt32) (value : UInt64) :
    Annotates (whisperWriteValueNoted conf metric timestamp value)
      (whisperWriteValue conf metric timestamp value) := by
  refine .bind (.quietly _) fun opened => ?_
  cases opened with
  | ok fd => exact whisperWriteOpenedNoted_annotates _ _ _
  | error errno =>
    cases errno with
    | enoent => exact .bind (.quietly _) fun fd => whisperWriteOpenedNoted_annotates _ _ _
    | ebadf => exact .pure _
    | einval => exact .pure _
    | eisdir => exact .pure _
    | other code => exact .pure _

/-- The propagations of one call of `whisper_write_value`. -/
def propagations (conf : CarbonConf) (metric : CString) (timestamp : UInt32) (value : UInt64)
    (w : World Globals) : List Propagation :=
  notesOf (whisperWriteValueNoted conf metric timestamp value) w

end

/-! ### The full scan -/

/-- The resolution of an archive divides the timestamp. -/
abbrev Divides (c : List UInt8) (alignedTimestamp : UInt32) (k : ℕ) : Prop :=
  (archiveInfoIn c k).secondsPerPoint.toNat ∣ alignedTimestamp.toNat

def propagationTo (c : List UInt8) (alignedTimestamp : UInt32) (k : ℕ) : Propagation :=
  ⟨k, alignedTimestamp, archiveInfoIn c (k - 1), archiveInfoIn c k⟩

/-- All dividing archives among `count` ones, each with the archive before it. -/
def scan (c : List UInt8) (alignedTimestamp : UInt32) (first count : ℕ) : List Propagation :=
  ((List.range' first count).filter fun k => Divides c alignedTimestamp k).map
    (propagationTo c alignedTimestamp)

def alignedIn (c : List UInt8) (timestamp : UInt32) : UInt32 :=
  timestamp - timestamp % (archiveInfoIn c 0).secondsPerPoint

/-- The archives from 1 on whose resolution divides the aligned timestamp. -/
def fullScan (c : List UInt8) (timestamp : UInt32) : List Propagation :=
  scan c (alignedIn c timestamp) 1 (archivesOf c - 1)

/-- Every archive has a resolution, and the next one has a multiple of it. -/
structure Chained (c : List UInt8) : Prop where
  positive : ∀ k < archivesOf c, (archiveInfoIn c k).secondsPerPoint ≠ 0
  multiple : ∀ k, k + 1 < archivesOf c →
    (archiveInfoIn c k).secondsPerPoint.toNat ∣ (archiveInfoIn c (k + 1)).secondsPerPoint.toNat

theorem Chained.divides_of_le (chained : Chained c) (divides : Divides c a k) (le : j ≤ k)
    (inside : k < archivesOf c) : Divides c a j := by
  induction k, le using Nat.le_induction with
  | base => exact divides
  | succ k le ih =>
    exact ih (Nat.dvd_trans (chained.multiple k inside) divides) (by omega)

theorem scan_succ (divides : Divides c a first) :
    scan c a first (count + 1) = propagationTo c a first :: scan c a (first + 1) count := by
  simp only [scan, List.range'_succ, List.filter_cons, divides, decide_true, if_true, List.map_cons]

/-- Behind an archive that does not divide, no archive does. -/
theorem Chained.scan_nil (chained : Chained c) (fits : first + count ≤ archivesOf c)
    (stops : 0 < count → ¬ Divides c a first) : scan c a first count = [] := by
  rw [scan, List.map_eq_nil_iff, List.filter_eq_nil_iff]
  intro k member divides
  obtain ⟨low, high⟩ := List.mem_range'_1.mp member
  exact stops (by omega) (chained.divides_of_le (of_decide_eq_true divides) low (by omega))

/-- The next archive is in the scan if there is one that divides. -/
theorem scan_eq_nil_iff (chained : Chained c) (fits : first + count ≤ archivesOf c) :
    scan c a first count = [] ↔ (0 < count → ¬ Divides c a first) := by
  constructor
  · intro none some divides
    obtain ⟨more, rfl⟩ := Nat.exists_eq_add_of_lt some
    rw [show 0 + more + 1 = more + 1 by omega, scan_succ divides] at none
    contradiction
  · exact chained.scan_nil fits

end Carbond.Whisper
