import Carbond.Posix.Globals
import Carbond.Whisper.FileProofs

/-! What holds of the globals of the program through every call of `whisper_write_value`: whatever
the write of one point keeps. The count for the monitoring is such a thing. -/
namespace Carbond.Whisper
open Bytes Posix Text
variable {holds : Globals → Prop}

/-- The write of a point keeps it, and so does an overrun. -/
structure Lasting (holds : Globals → Prop) : Prop where
  record : ∀ entry g, holds g → holds (recordWrite entry g)
  overrun : ∀ g, holds g → holds { g with overrun := true }

/-- Calls through a descriptor, with themselves. -/
theorem Lasting.writes (lasting : Lasting holds) (fd : ℕ) :
    Writes (fun s t => s = t ∧ OfGlobals holds s) fd fd where
  lseek _ := .of_keeps (lseek_globals _ _)
  read _ := .of_keeps (read_globals _ _)
  noteOverrun := .of_keeps (.change fun w => lasting.overrun w.globals)
  write _ := .of_keeps (write_globals _ _)
  contents := fun _ _ same => congrArg (contentsOf (some fd)) same.1
  record entry := .of_keeps (.change fun w => lasting.record entry w.globals)

theorem createDir_globals (p : Path) : Keeps (OfGlobals holds) (createDir p) := by
  apply (stat_globals p).bind
  intro looked
  cases looked with
  | ok isDir =>
    dsimp only
    split
    · exact .throw _
    · exact .pure _
  | error errno =>
    cases errno with
    | enoent => exact (mkdir_globals p).bind fun _ => .pure _
    | ebadf => exact .throw _
    | einval => exact .throw _
    | eisdir => exact .throw _
    | other code => exact .throw _

theorem createDirs_globals (list : List Path) : Keeps (OfGlobals holds) (createDirs list) := by
  induction list with
  | nil => exact .pure _
  | cons p rest ih => exact (createDir_globals p).bind fun _ => ih

theorem Lasting.writeNewFile (lasting : Lasting holds) (fd : ℕ) (ret : List Retention)
    (agg : PatternAggregation) :
    Keeps (OfGlobals holds) (Whisper.writeNewFile (some fd) ret agg) := by
  apply (write_globals _ _).bind
  intro written
  cases written with
  | error errno => exact .pure _
  | ok count =>
    dsimp only
    split
    · exact .pure _
    · apply ((lasting.writes fd).writeArchiveInfos _ _ _).keeps.bind
      intro infos
      cases infos with
      | false => exact .pure _
      | true =>
        apply ((lasting.writes fd).writeEmptyArchives _).keeps.bind
        intro archives
        cases archives with
        | false => exact .pure _
        | true => exact .pure _

section
variable [Platform]

theorem Lasting.whisperCreateFile (lasting : Lasting holds) (conf : CarbonConf) (metric : CString) :
    Keeps (OfGlobals holds) (Whisper.whisperCreateFile conf metric) := by
  apply (createDirs_globals _).bind
  intro _
  cases whisperFindAggregation metric conf.aggregation with
  | none => exact .pure _
  | some agg =>
    apply (openFile_globals _ true).bind
    intro opened
    cases opened with
    | error errno => exact .pure _
    | ok fd => exact lasting.writeNewFile fd _ agg

/-- Without a file the call ends. -/
theorem whisperWriteOpened_closed (timestamp : UInt32) (value : UInt64) :
    Keeps (OfGlobals holds) (whisperWriteOpened none timestamp value) := by
  intro w kept
  have sought : Ends w (whisperSeek none 0) (fun r s => r = exitFailure ∧ holds s.globals)
      (fun _ s => holds s.globals) := by
    apply (lseek_closed_globals _ w kept).bind
    rintro _ s ⟨⟨errno, rfl⟩, kept⟩
    exact .pure ⟨rfl, kept⟩
  have unread : Ends w (whisperReadMetadata none) (fun r s => r = none ∧ holds s.globals)
      (fun _ s => holds s.globals) := by
    apply sought.bind
    rintro _ s ⟨rfl, kept⟩
    exact .pure ⟨rfl, kept⟩
  apply unread.bind
  rintro _ s ⟨rfl, kept⟩
  exact .pure kept

theorem Lasting.whisperWriteOpened (lasting : Lasting holds) (fd : ℕ) (timestamp : UInt32)
    (value : UInt64) :
    Keeps (OfGlobals holds) (Whisper.whisperWriteOpened (some fd) timestamp value) := by
  have writes := lasting.writes fd
  apply writes.whisperReadMetadata.keeps.bind
  intro metadata
  cases metadata with
  | none => exact .pure _
  | some wspMd =>
    apply (writes.whisperReadArchiveInfo 0).keeps.bind
    intro info
    cases info with
    | none => exact .pure _
    | some wspArch =>
      apply (modulo32_lockstep _ _).keeps.bind
      intro rest
      apply (writes.whisperWritePoint _ _ _).keeps.bind
      intro _
      apply (writes.propagateLoop _ _ _ _ _).keeps.bind
      intro _
      exact (close_globals _).bind fun _ => .pure _

/-- A call keeps what the write of a point keeps. -/
theorem Lasting.whisperWriteValue (lasting : Lasting holds) (conf : CarbonConf) (metric : CString)
    (timestamp : UInt32) (value : UInt64) :
    Keeps (OfGlobals holds) (Whisper.whisperWriteValue conf metric timestamp value) := by
  apply (openFile_globals _ false).bind
  intro opened
  cases opened with
  | ok fd => exact lasting.whisperWriteOpened fd timestamp value
  | error errno =>
    cases errno with
    | enoent =>
      apply (lasting.whisperCreateFile conf metric).bind
      intro fd
      cases fd with
      | none => exact whisperWriteOpened_closed timestamp value
      | some fd => exact lasting.whisperWriteOpened fd timestamp value
    | ebadf => exact .pure _
    | einval => exact .pure _
    | eisdir => exact .pure _
    | other code => exact .pure _

end
end Carbond.Whisper
