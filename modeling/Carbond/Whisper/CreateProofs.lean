import Carbond.Whisper.Layout

/-! `whisper_create_file` produces the file laid out for its retentions. -/
namespace Carbond.Whisper
open Bytes Posix Text
variable {w : World Globals} {ret rest : List Retention} {agg : PatternAggregation}

/-! ### Directories -/

/-- No name on the way to the file is a regular file. -/
def Passable (w : World Globals) (dirs : List Path) : Prop :=
  ∀ dir ∈ dirs, ∀ contents, w.nodes dir ≠ some (.file contents)

/-- Nothing but nodes of the given names differs. -/
structure SameBut (dirs : List Path) (w w' : World Globals) : Prop where
  nodes : ∀ path ∉ dirs, w'.nodes path = w.nodes path
  descriptors : w'.descriptors = w.descriptors
  nextFd : w'.nextFd = w.nextFd
  outcomes : w'.outcomes = w.outcomes
  globals : w'.globals = w.globals

theorem SameBut.refl (dirs : List Path) (w : World Globals) : SameBut dirs w w :=
  ⟨fun _ _ => rfl, rfl, rfl, rfl, rfl⟩

theorem createDir_yields (quiet : w.outcomes = []) (dir : Path) (passable : Passable w [dir]) :
    ∃ w', Yields (createDir dir) w () w' ∧ SameBut [dir] w w' ∧
      ∀ path contents, w'.nodes path = some (.file contents) → w.nodes path = some (.file contents) := by
  have answer := stat_yields quiet dir
  cases found : w.nodes dir with
  | some node =>
    rw [found] at answer
    cases node with
    | directory =>
      exact ⟨w, .bind answer (.pure _ _), .refl _ _, fun _ _ => id⟩
    | file contents => exact absurd found (passable dir List.mem_cons_self contents)
  | none =>
    rw [found] at answer
    by_cases named : dir = []
    · subst named
      exact ⟨w, .bind answer (.bind (mkdir_unnamed quiet) (.pure _ _)), .refl _ _, fun _ _ => id⟩
    · let w' : World Globals := { w with nodes := Function.update w.nodes dir (some .directory) }
      refine ⟨w', .bind answer (.bind (mkdir_yields quiet found named) (.pure _ _)),
        ⟨?_, rfl, rfl, rfl, rfl⟩, ?_⟩
      · intro path other
        exact Function.update_of_ne (List.ne_of_not_mem_cons other) _ _
      · intro path contents stored
        by_cases same : path = dir
        · subst same
          simp [w'] at stored
        · rwa [show w'.nodes path = w.nodes path from Function.update_of_ne same _ _] at stored

theorem createDirs_yields (quiet : w.outcomes = []) (passable : Passable w dirs) :
    ∃ w', Yields (createDirs dirs) w () w' ∧ SameBut dirs w w' := by
  induction dirs generalizing w with
  | nil => exact ⟨w, .pure _ _, .refl _ _⟩
  | cons dir rest ih =>
    obtain ⟨w₁, made, same, old⟩ := createDir_yields quiet dir
      fun d member => passable d (List.mem_singleton.mp member ▸ List.mem_cons_self)
    obtain ⟨w₂, run, same'⟩ := ih (same.outcomes.trans quiet)
      fun d member contents stored =>
        passable d (List.mem_cons_of_mem _ member) contents (old d contents stored)
    refine ⟨w₂, .bind made run, ⟨?_, same'.descriptors.trans same.descriptors,
      same'.nextFd.trans same.nextFd, same'.outcomes.trans same.outcomes,
      same'.globals.trans same.globals⟩⟩
    intro path other
    rw [same'.nodes path (List.not_mem_of_not_mem_cons other),
      same.nodes path (List.not_mem_cons_of_ne_of_not_mem (List.ne_of_not_mem_cons other) (by simp))]

/-! ### Writes -/

theorem archiveOffsetLoop_yields (positive : ∀ cur ∈ rest.take idRet, cur.timePerPoint ≠ 0)
    (inside : idRet ≤ rest.length) (offset : UInt32) :
    Yields (archiveOffsetLoop rest idRet offset) w
      ((rest.take idRet).foldl (fun offset cur => offset + pointCount cur * 12) offset) w := by
  induction rest generalizing idRet offset with
  | nil =>
    obtain rfl := Nat.le_zero.mp inside
    exact .pure _ _
  | cons cur next ih =>
    cases idRet with
    | zero => exact .pure _ _
    | succ idRet =>
      rw [List.take_succ_cons] at positive
      exact .bind (divide32_yields _ (positive cur List.mem_cons_self))
        (ih (fun r member => positive r (List.mem_cons_of_mem _ member))
          (Nat.le_of_succ_le_succ inside) _)

theorem whisperGetArchiveOffset_yields (positive : ∀ cur ∈ ret.take idRet, cur.timePerPoint ≠ 0)
    (inside : idRet ≤ ret.length) :
    Yields (whisperGetArchiveOffset ret idRet) w (archiveOffset ret idRet) w :=
  archiveOffsetLoop_yields positive inside _

theorem appended (opened : Opened w fd path c c.length) (data : List UInt8) :
    Opened (w.put fd path (c ++ data) (c ++ data).length) fd path (c ++ data) (c ++ data).length :=
  opened.moved _ _

/-- A write at the end of an open file. -/
theorem write_end_yields (opened : Opened w fd path c c.length) (data : List UInt8) :
    Yields (write (some fd) data) w (.ok data.length)
      (w.put fd path (c ++ data) (c ++ data).length) := by
  have written := write_yields opened data
  rwa [writeAt_end, ← List.length_append] at written

theorem writeArchiveInfos_yields (positive : ∀ cur ∈ ret, cur.timePerPoint ≠ 0)
    (suffix : ret.drop idRet = rest) (opened : Opened w fd path c c.length) :
    Yields (writeArchiveInfos (some fd) ret rest idRet) w true
      (w.put fd path (c ++ infoBytes ret rest idRet) (c ++ infoBytes ret rest idRet).length) := by
  induction rest generalizing w c idRet with
  | nil =>
    rw [infoBytes, List.append_nil, opened.put_self]
    exact .pure _ _
  | cons cur next ih =>
    obtain ⟨found, suffix'⟩ := retention_next suffix
    have inside : idRet ≤ ret.length := Nat.le_of_lt (List.getElem?_eq_some_iff.mp found).1
    have written := write_end_yields opened (htonArchiveInfo (archiveOf ret idRet cur)).bytes
    have run := ih suffix' (appended opened (htonArchiveInfo (archiveOf ret idRet cur)).bytes)
    rw [World.put_put, List.append_assoc] at run
    refine .bind (divide32_yields _ (positive cur (List.mem_of_getElem? found)))
      (.bind (whisperGetArchiveOffset_yields (fun r kept => positive r (List.mem_of_mem_take kept))
        inside) (.bind written ?_))
    simp only [ArchiveInfo.bytes_length, whisperArchiveSize, Nat.lt_irrefl, if_false]
    exact run

theorem writeEmptyArchives_yields (positive : ∀ cur ∈ rest, cur.timePerPoint ≠ 0)
    (opened : Opened w fd path c c.length) :
    Yields (writeEmptyArchives (some fd) rest) w true
      (w.put fd path (c ++ List.replicate (emptySize rest) 0)
        (c ++ List.replicate (emptySize rest) 0).length) := by
  induction rest generalizing w c with
  | nil =>
    rw [emptySize_nil, List.replicate_zero, List.append_nil, opened.put_self]
    exact .pure _ _
  | cons cur next ih =>
    have written := write_end_yields opened (List.replicate (pointCount cur * 12).toNat 0)
    have run := ih (fun r member => positive r (List.mem_cons_of_mem _ member))
      (appended opened (List.replicate (pointCount cur * 12).toNat 0))
    rw [World.put_put, List.append_assoc, List.replicate_append_replicate, ← emptySize_cons] at run
    refine .bind (divide32_yields _ (positive cur List.mem_cons_self)) (.bind written ?_)
    simp only [List.length_replicate, pointCount, Nat.lt_irrefl, if_false]
    exact run

theorem writeNewFile_yields (positive : ∀ cur ∈ ret, cur.timePerPoint ≠ 0)
    (opened : Opened w fd path [] 0) :
    Yields (writeNewFile (some fd) ret agg) w (some fd)
      (w.put fd path (newContents ret agg) (newContents ret agg).length) := by
  have header := write_end_yields opened (htonWhisperMetadata (newMetadata ret agg)).bytes
  have start := appended opened (htonWhisperMetadata (newMetadata ret agg)).bytes
  have infos := writeArchiveInfos_yields positive List.drop_zero start
  have points := writeEmptyArchives_yields positive (appended start (infoBytes ret ret 0))
  rw [World.put_put] at infos points
  rw [World.put_put] at points
  refine .bind header ?_
  simp only [Metadata.bytes_length, whisperHeaderSize, Nat.lt_irrefl, if_false]
  exact .bind infos (.bind points (.pure _ _))

/-! ### The whole creation -/

/-- A place for a new file: every call succeeds, the name has a component, the file does not exist,
and nothing but directories is on the way to it. -/
structure Creatable (w : World Globals) (storageDir metric : CString) : Prop where
  quiet : w.outcomes = []
  named : strtok '.' metric ≠ []
  fresh : w.nodes (whisperMetricFilename storageDir metric) = none
  passable : Passable w (metricDirs storageDir metric)

/-- The path of the file is longer than those of its directories. -/
theorem metricPath_longer (tmpDirName : Path) {components : List CString}
    (named : components ≠ []) : ∀ dir ∈ tmpDirName :: componentDirs tmpDirName components,
      dir.length < (metricPath tmpDirName components).length := by
  induction components generalizing tmpDirName with
  | nil => contradiction
  | cons last rest ih =>
    intro dir member
    cases rest with
    | nil =>
      rw [componentDirs] at member
      obtain rfl := List.mem_singleton.mp member
      simp only [metricPath, List.length_append, List.length_cons]
      omega
    | cons next rest =>
      have longer := ih (tmpDirName ++ '/' :: last) (by simp)
      rw [componentDirs] at member
      rw [metricPath]
      rcases List.mem_cons.mp member with rfl | below
      · have first := longer _ List.mem_cons_self
        rw [List.length_append] at first
        omega
      · exact longer dir below

variable [Platform]

/-- The file is opened, and what remains is to write it. -/
theorem whisperCreateFile_opens {conf : CarbonConf}
    (aggregated : whisperFindAggregation metric conf.aggregation = some agg)
    (creatable : Creatable w conf.storageDir metric) :
    ∃ fd w', Opened w' fd (whisperMetricFilename conf.storageDir metric) [] 0 ∧
      w'.globals = w.globals ∧ whisperCreateFile conf metric w =
        writeNewFile (some fd) (whisperFindRetention metric conf.schema) agg w' := by
  obtain ⟨w₁, made, same⟩ := createDirs_yields creatable.quiet creatable.passable
  have quiet := same.outcomes.trans creatable.quiet
  have longer := metricPath_longer conf.storageDir creatable.named
  have apart : whisperMetricFilename conf.storageDir metric ∉ metricDirs conf.storageDir metric :=
    fun member => Nat.lt_irrefl _ (longer _ member)
  have named : whisperMetricFilename conf.storageDir metric ≠ [] := by
    intro empty
    have positive := longer _ List.mem_cons_self
    rw [show metricPath conf.storageDir (strtok '.' metric) = [] from empty] at positive
    exact Nat.not_lt_zero _ positive
  obtain ⟨w₂, created, opened, kept⟩ := openFile_creates quiet
    ((same.nodes _ apart).trans creatable.fresh) named
  refine ⟨w₁.nextFd, w₂, opened, kept.trans same.globals, ?_⟩
  unfold whisperCreateFile
  refine Eq.trans (Yields.rest_eq made _) ?_
  rw [aggregated]
  exact created.rest_eq _

theorem whisperCreateFile_yields {conf : CarbonConf}
    (found : whisperFindRetention metric conf.schema = ret)
    (aggregated : whisperFindAggregation metric conf.aggregation = some agg)
    (positive : ∀ cur ∈ ret, cur.timePerPoint ≠ 0) (creatable : Creatable w conf.storageDir metric) :
    ∃ fd w', Yields (whisperCreateFile conf metric) w (some fd) w' ∧
      Opened w' fd (whisperMetricFilename conf.storageDir metric) (newContents ret agg)
        (newContents ret agg).length := by
  obtain ⟨fd, w₁, opened, _, rest⟩ := whisperCreateFile_opens aggregated creatable
  rw [found] at rest
  exact ⟨fd, _, rest.trans (writeNewFile_yields positive opened), opened.moved _ _⟩

/-! ### A configuration to create files from -/

/-- One rule of each kind, with the empty pattern. -/
def soleRule (ret : List Retention) (agg : PatternAggregation) : CarbonConf where
  schema := [⟨[], none, ret⟩]
  aggregation := [agg]
  confDir := []
  confFile := []
  storageDir := "/b".toList
  lineReceiverPort := 2003
  udpReceiverPort := 2003
  run := true
  tracing := false
  logLevel := .error

def emptyWorld : World Globals where
  nodes _ := none
  descriptors _ := none
  nextFd := 0
  outcomes := []
  globals := ⟨0, [], false⟩

omit [Platform] in
theorem emptyWorld_creatable (named : strtok '.' metric ≠ []) (storageDir : CString) :
    Creatable emptyWorld storageDir metric :=
  ⟨rfl, named, rfl, fun _ _ _ => nofun⟩

end Carbond.Whisper
