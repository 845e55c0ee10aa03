import Carbond.Posix.Lockstep
import Carbond.Whisper.Interval

/-! What the functions on an open whisper file do depends on the results of its calls alone: two
runs of them go in lockstep for every relation that the calls keep, such as that of two files with
the same contents. -/
namespace Carbond.Whisper
open Bytes Posix Text
variable {related : World Globals → World Globals → Prop} {fd fd' : ℕ}

/-- The calls that read through these descriptors keep the relation, and so does an overrun. -/
structure Reads (related : World Globals → World Globals → Prop) (fd fd' : ℕ) : Prop where
  lseek : ∀ offset, Lockstep related (Posix.lseek (some fd) offset) (Posix.lseek (some fd') offset)
  read : ∀ count, Lockstep related (Posix.read (some fd) count) (Posix.read (some fd') count)
  noteOverrun : Lockstep related Whisper.noteOverrun Whisper.noteOverrun

/-- So do those that write, and the history kept of them, in which the files look the same. -/
structure Writes (related : World Globals → World Globals → Prop) (fd fd' : ℕ) : Prop
    extends Reads related fd fd' where
  write : ∀ data, Lockstep related (Posix.write (some fd) data) (Posix.write (some fd') data)
  contents : ∀ w w', related w w' → contentsOf (some fd) w = contentsOf (some fd') w'
  record : ∀ entry, Lockstep related
    (modify fun w => w.withGlobals (recordWrite entry w.globals) : Action PUnit)
    (modify fun w => w.withGlobals (recordWrite entry w.globals) : Action PUnit)

theorem divide32_lockstep (a b : UInt32) :
    Lockstep related (Whisper.divide32 a b) (Whisper.divide32 a b) := by
  unfold Whisper.divide32
  split
  · exact .throw _
  · exact .pure _

theorem modulo32_lockstep (a b : UInt32) :
    Lockstep related (Whisper.modulo32 a b) (Whisper.modulo32 a b) := by
  unfold Whisper.modulo32
  split
  · exact .throw _
  · exact .pure _

theorem modulo64_lockstep (a b : UInt64) :
    Lockstep related (Whisper.modulo64 a b) (Whisper.modulo64 a b) := by
  unfold Whisper.modulo64
  split
  · exact .throw _
  · exact .pure _

theorem writeOffset_lockstep (archive : ArchiveInfo) (timestamp first : UInt32) :
    Lockstep related (Whisper.writeOffset archive timestamp first)
      (Whisper.writeOffset archive timestamp first) := by
  unfold Whisper.writeOffset
  split
  · exact .pure _
  · exact (divide32_lockstep _ _).bind fun _ => (modulo64_lockstep _ _).bind fun _ => .pure _

theorem whisperGetArchiveOffset_lockstep (retentionList : List Retention) (idRet : ℕ) :
    Lockstep related (Whisper.whisperGetArchiveOffset retentionList idRet)
      (Whisper.whisperGetArchiveOffset retentionList idRet) := by
  unfold Whisper.whisperGetArchiveOffset
  generalize retentionList.foldl (fun offset _ => offset + 12) (16 : UInt32) = offset
  induction retentionList generalizing idRet offset with
  | nil =>
    cases idRet with
    | zero => exact .pure _
    | succ idRet => exact .throw _
  | cons cur next ih =>
    cases idRet with
    | zero => exact .pure _
    | succ idRet => exact (divide32_lockstep _ _).bind fun _ => ih _ _

/-! ### Reading -/

theorem Reads.whisperSeek (reads : Reads related fd fd') (offset : Int32) : Lockstep related
    (Whisper.whisperSeek (some fd) offset) (Whisper.whisperSeek (some fd') offset) := by
  apply (reads.lseek _).bind
  intro sought
  cases sought with
  | error errno => exact .pure _
  | ok pos => exact .pure _

theorem Reads.whisperReadMetadata (reads : Reads related fd fd') : Lockstep related
    (Whisper.whisperReadMetadata (some fd)) (Whisper.whisperReadMetadata (some fd')) := by
  apply (reads.whisperSeek _).bind
  intro sought
  by_cases failed : sought ≠ exitSuccess
  · simp only [if_pos failed]
    exact .pure _
  · simp only [if_neg failed]
    apply (reads.read _).bind
    intro got
    cases got with
    | error errno => exact .pure _
    | ok bytes => exact .pure _

theorem Reads.whisperReadArchiveInfo (reads : Reads related fd fd') (archiveId : ℕ) : Lockstep related
    (Whisper.whisperReadArchiveInfo (some fd) archiveId)
    (Whisper.whisperReadArchiveInfo (some fd') archiveId) := by
  apply (reads.whisperSeek _).bind
  intro sought
  by_cases failed : sought ≠ exitSuccess
  · simp only [if_pos failed]
    exact .pure _
  · simp only [if_neg failed]
    apply (reads.read _).bind
    intro got
    cases got with
    | error errno => exact .pure _
    | ok bytes => exact .pure _

theorem Reads.whisperReadArchivePoint (reads : Reads related fd fd') : Lockstep related
    (Whisper.whisperReadArchivePoint (some fd)) (Whisper.whisperReadArchivePoint (some fd')) := by
  apply (reads.read _).bind
  intro got
  cases got with
  | error errno => exact .pure _
  | ok timestamp =>
    apply (reads.read _).bind
    intro got
    cases got with
    | error errno => exact .pure _
    | ok value => exact .pure _

theorem Reads.readInto (reads : Reads related fd fd') (buffer : List UInt8) (start : ℤ) (count : ℕ) :
    Lockstep related (Whisper.readInto (some fd) buffer start count)
      (Whisper.readInto (some fd') buffer start count) := by
  apply (reads.read _).bind
  intro got
  cases got with
  | error errno => exact .pure _
  | ok got =>
    by_cases outside : got ≠ [] ∧ (start < 0 ∨ buffer.length < start + got.length)
    · simp only [if_pos outside]
      exact reads.noteOverrun.bind fun _ => .pure _
    · simp only [if_neg outside]
      exact .pure _

theorem Reads.readInterval (reads : Reads related fd fd') (higher : ArchiveInfo) (startOffset endOffset : UInt32) :
    Lockstep related
      (Whisper.readInterval (some fd) higher startOffset endOffset)
      (Whisper.readInterval (some fd') higher startOffset endOffset) := by
  apply (reads.whisperSeek _).bind
  intro _
  by_cases contiguous : startOffset < endOffset
  · simp only [if_pos contiguous]
    exact reads.readInto _ _ _
  · simp only [if_neg contiguous]
    exact (reads.readInto _ _ _).bind fun _ => (reads.whisperSeek _).bind fun _ => reads.readInto _ _ _

section
variable [Platform]

theorem Reads.pointOf (reads : Reads related fd fd') (rdBuf : List UInt8) (id : ℕ) : Lockstep related
    (Whisper.pointOf rdBuf id) (Whisper.pointOf rdBuf id) := by
  unfold Whisper.pointOf
  split
  · exact reads.noteOverrun.bind fun _ => .pure _
  · exact .pure _

theorem Reads.collectKnown (reads : Reads related fd fd') (rdBuf : List UInt8) (higher : ArchiveInfo) (remaining id : ℕ)
    (curTimestamp : UInt32) (known : List UInt64) : Lockstep related
      (Whisper.collectKnown rdBuf higher remaining id curTimestamp known)
      (Whisper.collectKnown rdBuf higher remaining id curTimestamp known) := by
  induction remaining generalizing id curTimestamp known with
  | zero => exact .pure _
  | succ remaining ih =>
    apply (reads.pointOf _ _).bind
    intro tmpPoint
    split
    · split
      · exact reads.noteOverrun.bind fun _ => ih _ _ _
      · exact ih _ _ _
    · exact ih _ _ _

theorem Reads.collect (reads : Reads related fd fd') (timestamp : UInt32)
    (higher lower : ArchiveInfo) : Lockstep related
      (Whisper.collect (some fd) timestamp higher lower)
      (Whisper.collect (some fd') timestamp higher lower) := by
  apply (reads.whisperSeek _).bind
  intro _
  apply reads.whisperReadArchivePoint.bind
  intro first
  cases first with
  | none => exact .throw _
  | some firstHigherPoint =>
    apply (divide32_lockstep _ _).bind
    intro pointsDistance
    apply (modulo64_lockstep _ _).bind
    intro into
    apply (divide32_lockstep _ _).bind
    intro nbHigherPoints
    apply (modulo64_lockstep _ _).bind
    intro last
    apply (reads.readInterval _ _ _).bind
    intro rdBuf
    exact (reads.collectKnown _ _ _ _ _ _).bind fun _ => .pure _

end

/-! ### Writing -/

theorem Writes.writeArchiveInfos (writes : Writes related fd fd') (ret rest : List Retention) (idRet : ℕ) :
    Lockstep related (Whisper.writeArchiveInfos (some fd) ret rest idRet)
      (Whisper.writeArchiveInfos (some fd') ret rest idRet) := by
  induction rest generalizing idRet with
  | nil => exact .pure _
  | cons cur next ih =>
    apply (divide32_lockstep _ _).bind
    intro nbPoints
    apply (whisperGetArchiveOffset_lockstep _ _).bind
    intro offset
    apply (writes.write _).bind
    intro written
    cases written with
    | error errno => exact .pure _
    | ok count =>
      by_cases short : count < whisperArchiveSize
      · simp only [if_pos short]
        exact .pure _
      · simp only [if_neg short]
        exact ih _

theorem Writes.writeEmptyArchives (writes : Writes related fd fd') (ret : List Retention) : Lockstep related
    (Whisper.writeEmptyArchives (some fd) ret) (Whisper.writeEmptyArchives (some fd') ret) := by
  induction ret with
  | nil => exact .pure _
  | cons cur next ih =>
    apply (divide32_lockstep _ _).bind
    intro nbPoints
    apply (writes.write _).bind
    intro written
    cases written with
    | error errno => exact ih
    | ok count =>
      by_cases short : count < (nbPoints * 12).toNat
      · simp only [if_pos short]
        exact .pure _
      · simp only [if_neg short]
        exact ih

theorem Writes.whisperWritePoint (writes : Writes related fd fd') (archive : ArchiveInfo) (timestamp : UInt32) (point : ArchivePoint) :
    Lockstep related
      (Whisper.whisperWritePoint (some fd) archive timestamp point)
      (Whisper.whisperWritePoint (some fd') archive timestamp point) := by
  apply (writes.whisperSeek _).bind
  intro sought
  by_cases failed : sought ≠ exitSuccess
  · simp only [if_pos failed]
    exact .pure _
  simp only [if_neg failed]
  apply writes.whisperReadArchivePoint.bind
  intro first
  cases first with
  | none => exact .throw _
  | some firstArchPt =>
    apply (writeOffset_lockstep _ _ _).bind
    intro target
    apply (writes.lseek _).bind
    intro sought
    cases sought with
    | error errno => exact .pure _
    | ok pos =>
      apply Lockstep.look
      intro w w' kept
      simp only [writes.contents w w' kept]
      apply (writes.write _).bind
      intro written
      cases written with
      | error errno => exact .pure _
      | ok count =>
        by_cases short : count < whisperPointSize
        · simp only [if_pos short]
          exact .pure _
        simp only [if_neg short]
        apply Lockstep.look
        intro s t kept
        simp only [writes.contents s t kept]
        exact (writes.record _).bind fun _ => .pure _

section
variable [Platform]

theorem Writes.whisperWritePropagate (writes : Writes related fd fd') (timestamp : UInt32)
    (wspMd : Metadata) (higher lower : ArchiveInfo) : Lockstep related
      (Whisper.whisperWritePropagate (some fd) timestamp wspMd higher lower)
      (Whisper.whisperWritePropagate (some fd') timestamp wspMd higher lower) := by
  rw [whisperWritePropagate_eq, whisperWritePropagate_eq]
  apply (writes.collect _ _ _).bind
  rintro ⟨nbHigherPoints, known⟩
  apply (divide32_lockstep _ _).bind
  intro ratio
  by_cases enough : Platform.atLeast ratio wspMd.xFilesFactor
  · simp only [if_pos enough]
    exact (writes.whisperWritePoint _ _ _).bind fun _ => .pure _
  · simp only [if_neg enough]
    exact .pure _

theorem Writes.propagateLoop (writes : Writes related fd fd') (alignedTimestamp : UInt32) (wspMd : Metadata) (remaining archiveId : ℕ)
    (higher : ArchiveInfo) : Lockstep related
      (Whisper.propagateLoop (some fd) alignedTimestamp wspMd remaining archiveId higher)
      (Whisper.propagateLoop (some fd') alignedTimestamp wspMd remaining archiveId higher) := by
  induction remaining generalizing archiveId higher with
  | zero => exact .pure _
  | succ remaining ih =>
    apply (writes.whisperReadArchiveInfo _).bind
    intro info
    cases info with
    | none => exact .throw _
    | some lower =>
      by_cases unset : lower.secondsPerPoint = 0
      · simp only [if_pos unset]
        exact .throw _
      simp only [if_neg unset]
      apply (modulo32_lockstep _ _).bind
      intro rest
      by_cases divides : rest = 0
      · simp only [if_pos divides]
        exact (writes.whisperWritePropagate _ _ _ _).bind fun _ => ih _ _
      · simp only [if_neg divides]
        exact .pure _

end

/-! ### Two files with the same contents -/

theorem twins_writes {path path' : Path} {before before' : World Globals} :
    Writes (Twins fd path before fd' path' before') fd fd' where
  lseek := Lockstep.lseek
  read := Lockstep.read
  noteOverrun := Lockstep.globals fun g : Globals => ⟨g.points, g.writes, true⟩
  write := Lockstep.write
  contents := by
    rintro w w' ⟨outcomes, c, pos, left, right⟩
    simp only [contentsOf, descriptorOf, Option.bind_some, left.holding.descriptor,
      right.holding.descriptor, Option.map_some, left.holding.node, right.holding.node]
  record entry := Lockstep.globals (recordWrite entry)

end Carbond.Whisper
