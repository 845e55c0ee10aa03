import Carbond.Posix.Places
import Carbond.Whisper.FileProofs

/-! A call of `whisper_write_value` keeps to the file and the directories of its metric, whatever
the kernel does with its system calls, and what it does depends on nothing else. -/
namespace Carbond.Whisper
open Bytes Posix Text
variable {path : Path} {dirs : List Path} {before before' w w' : World Globals}

/-! ### Directories -/

/-- Where every call succeeds and no file is in the way, the directory is there or is made. -/
theorem createDir_quiet (quiet : w.outcomes = []) (absent : NotFile w p) :
    ∃ s, Yields (createDir p) w () s ∧ (s = w ∨
      w.nodes p = none ∧ s = { w with nodes := Function.update w.nodes p (some .directory) }) := by
  have looked := stat_yields quiet p
  cases found : w.nodes p with
  | some node =>
    rw [found] at looked
    cases node with
    | directory => exact ⟨w, .bind looked (.pure _ _), .inl rfl⟩
    | file c => exact (absent c found).elim
  | none =>
    rw [found] at looked
    by_cases named : p = []
    · subst named
      exact ⟨w, .bind looked (.bind (mkdir_unnamed quiet) (.pure _ _)), .inl rfl⟩
    · exact ⟨_, .bind looked (.bind (mkdir_yields quiet found named) (.pure _ _)), .inr ⟨rfl, rfl⟩⟩

/-- What a directory made or found does to the world. -/
theorem touches_created (touches : Touches path dirs before w) (inside : p ∈ dirs)
    (absent : NotFile w p) (result : s = w ∨
      w.nodes p = none ∧ s = { w with nodes := Function.update w.nodes p (some .directory) }) :
    Touches path dirs before s ∧ s.outcomes = w.outcomes ∧ NotFile s p ∧
      ∀ q, q ≠ p → s.nodes q = w.nodes q := by
  rcases result with rfl | ⟨free, rfl⟩
  · exact ⟨touches, rfl, absent, fun _ _ => rfl⟩
  · exact ⟨touches.mkdir inside free, rfl, absent.mkdir p, fun q other =>
      Function.update_of_ne other _ _⟩

theorem createDir_both (inside : p ∈ dirs) :
    Lockstep (Alike path dirs before before') (createDir p) (createDir p) := by
  intro w w' alike
  by_cases found : w'.nodes p = w.nodes p
  · apply (alike.stat found).bind
    rintro looked _ s s' ⟨rfl, found, alike⟩
    cases looked with
    | ok isDir =>
      dsimp only
      split
      · exact .throw alike _
      · exact .pure ⟨rfl, alike⟩
    | error errno =>
      cases errno with
      | enoent =>
        apply (alike.mkdir found inside).bind
        rintro _ _ t t' ⟨_, alike⟩
        exact .pure ⟨rfl, alike⟩
      | ebadf => exact .throw alike _
      | einval => exact .throw alike _
      | eisdir => exact .throw alike _
      | other code => exact .throw alike _
  · obtain ⟨quiet, absent, absent'⟩ := (alike.same.directories p inside).resolve_left found
    have quiet' : w'.outcomes = [] := alike.same.schedule.trans quiet
    have other : p ≠ path := by
      rintro rfl
      exact found alike.same.file
    obtain ⟨s, run, result⟩ := createDir_quiet quiet absent
    obtain ⟨s', run', result'⟩ := createDir_quiet quiet' absent'
    obtain ⟨left, used, absent, kept⟩ := touches_created alike.left inside absent result
    obtain ⟨right, used', absent', kept'⟩ := touches_created alike.right inside absent' result'
    exact .of_yields run run' ⟨rfl, alike.same.appears (used.trans quiet) (used'.trans quiet') other
      absent absent' kept kept', left, right, used ▸ alike.used⟩

theorem createDirs_both (list : List Path) (inside : ∀ p ∈ list, p ∈ dirs) :
    Lockstep (Alike path dirs before before') (createDirs list) (createDirs list) := by
  induction list with
  | nil => exact .pure _
  | cons p rest ih =>
    apply (createDir_both (inside p List.mem_cons_self)).bind
    intro _
    exact ih fun q member => inside q (List.mem_cons_of_mem _ member)

/-! ### Calls -/

/-- Both descriptors are -1, or both are the open file. -/
def BothFds (path : Path) (dirs : List Path) (before before' : World Globals) (fd fd' : Fd)
    (s s' : World Globals) : Prop :=
  fd = none ∧ fd' = none ∧ Alike path dirs before before' s s' ∨
    ∃ n n', fd = some n ∧ fd' = some n' ∧ BothOpen path dirs before before' n n' s s'

theorem bothFds_open {n n' : ℕ} (opened : BothOpen path dirs before before' n n' s s') :
    BothFds path dirs before before' (some n) (some n') s s' := .inr ⟨n, n', rfl, rfl, opened⟩

theorem bothFds_none {n n' : ℕ} (opened : BothOpen path dirs before before' n n' s s') :
    BothFds path dirs before before' none none s s' := .inl ⟨rfl, rfl, opened.alike⟩

theorem writeNewFile_both {n n' : ℕ} {s s' : World Globals}
    (opened : BothOpen path dirs before before' n n' s s') (ret : List Retention)
    (agg : PatternAggregation) :
    Both s s' (writeNewFile (some n) ret agg) (writeNewFile (some n') ret agg)
      (BothFds path dirs before before') (Alike path dirs before before') := by
  refine opened.step (fun _ _ => Lockstep.write _) fun written t t' opened => ?_
  cases written with
  | error errno => exact .pure (bothFds_none opened)
  | ok count =>
    dsimp only
    split
    · exact .pure (bothFds_none opened)
    · refine opened.step (fun _ _ => twins_writes.writeArchiveInfos _ _ _) fun infos t t' opened => ?_
      cases infos with
      | false => exact .pure (bothFds_none opened)
      | true =>
        refine opened.step (fun _ _ => twins_writes.writeEmptyArchives _) fun archives t t' opened => ?_
        cases archives with
        | false => exact .pure (bothFds_none opened)
        | true => exact .pure (bothFds_open opened)

variable [Platform] {conf : CarbonConf} {metric : CString}

/-- The file and the directories of a metric. -/
structure Places (conf : CarbonConf) (metric : CString) (path : Path) (dirs : List Path) : Prop where
  file : whisperMetricFilename conf.storageDir metric = path
  directories : ∀ dir ∈ metricDirs conf.storageDir metric, dir ∈ dirs

theorem whisperCreateFile_both (places : Places conf metric path dirs)
    (alike : Alike path dirs before before' w w') :
    Both w w' (whisperCreateFile conf metric) (whisperCreateFile conf metric)
      (BothFds path dirs before before') (Alike path dirs before before') := by
  unfold whisperCreateFile
  rw [places.file]
  apply (createDirs_both _ places.directories w w' alike).bind
  rintro _ _ s s' ⟨_, alike⟩
  cases whisperFindAggregation metric conf.aggregation with
  | none => exact .pure (.inl ⟨rfl, rfl, alike⟩)
  | some agg =>
    apply (alike.openFile true).bind
    rintro r r' t t' (⟨errno, rfl, rfl, alike⟩ | ⟨n, n', rfl, rfl, opened⟩)
    · exact .pure (.inl ⟨rfl, rfl, alike⟩)
    · exact writeNewFile_both opened _ _

/-- Without a file the call ends. -/
theorem whisperWriteOpened_unnamed (alike : Alike path dirs before before' w w') (timestamp : UInt32)
    (value : UInt64) : Both w w' (whisperWriteOpened none timestamp value)
      (whisperWriteOpened none timestamp value)
      (fun r r' s s' => r = r' ∧ Alike path dirs before before' s s')
      (Alike path dirs before before') := by
  have sought : Both w w' (whisperSeek none 0) (whisperSeek none 0)
      (fun r r' s s' => r = exitFailure ∧ r' = exitFailure ∧ Alike path dirs before before' s s')
      (Alike path dirs before before') := by
    apply (alike.lseek_closed _).bind
    rintro _ _ s s' ⟨⟨e, e', rfl, rfl⟩, alike⟩
    exact .pure ⟨rfl, rfl, alike⟩
  have unread : Both w w' (whisperReadMetadata none) (whisperReadMetadata none)
      (fun r r' s s' => r = none ∧ r' = none ∧ Alike path dirs before before' s s')
      (Alike path dirs before before') := by
    apply sought.bind
    rintro _ _ s s' ⟨rfl, rfl, alike⟩
    exact .pure ⟨rfl, rfl, alike⟩
  apply unread.bind
  rintro _ _ s s' ⟨rfl, rfl, alike⟩
  exact .pure ⟨rfl, alike⟩

theorem whisperWriteOpened_both {n n' : ℕ} {s s' : World Globals}
    (opened : BothOpen path dirs before before' n n' s s') (timestamp : UInt32) (value : UInt64) :
    Both s s' (whisperWriteOpened (some n) timestamp value)
      (whisperWriteOpened (some n') timestamp value)
      (fun r r' t t' => r = r' ∧ Alike path dirs before before' t t')
      (Alike path dirs before before') := by
  refine opened.step (fun _ _ => twins_writes.whisperReadMetadata) fun metadata t t' opened => ?_
  cases metadata with
  | none => exact .pure ⟨rfl, opened.alike⟩
  | some wspMd =>
    refine opened.step (fun _ _ => twins_writes.whisperReadArchiveInfo _) fun info t t' opened => ?_
    cases info with
    | none => exact .pure ⟨rfl, opened.alike⟩
    | some wspArch =>
      refine opened.step (fun _ _ => modulo32_lockstep _ _) fun rest t t' opened => ?_
      refine opened.step (fun _ _ => twins_writes.whisperWritePoint _ _ _) fun _ t t' opened => ?_
      refine opened.step (fun _ _ => twins_writes.propagateLoop _ _ _ _ _) fun _ t t' opened => ?_
      apply opened.close.bind
      rintro _ _ u u' alike
      exact .pure ⟨rfl, alike⟩

/-- What a call does depends on the places of its metric alone. -/
theorem whisperWriteValue_both (places : Places conf metric path dirs)
    (alike : Alike path dirs before before' w w') (timestamp : UInt32) (value : UInt64) :
    Both w w' (whisperWriteValue conf metric timestamp value)
      (whisperWriteValue conf metric timestamp value)
      (fun r r' s s' => r = r' ∧ Alike path dirs before before' s s')
      (Alike path dirs before before') := by
  unfold whisperWriteValue
  rw [places.file]
  apply (alike.openFile false).bind
  rintro r r' t t' (⟨errno, rfl, rfl, alike⟩ | ⟨n, n', rfl, rfl, opened⟩)
  · cases errno with
    | enoent =>
      apply (whisperCreateFile_both places alike).bind
      rintro fd fd' t t' (⟨rfl, rfl, alike⟩ | ⟨n, n', rfl, rfl, opened⟩)
      · exact whisperWriteOpened_unnamed alike timestamp value
      · exact whisperWriteOpened_both opened timestamp value
    | ebadf => exact .pure ⟨rfl, alike⟩
    | einval => exact .pure ⟨rfl, alike⟩
    | eisdir => exact .pure ⟨rfl, alike⟩
    | other code => exact .pure ⟨rfl, alike⟩
  · exact whisperWriteOpened_both opened timestamp value

/-- What one call touches, and that it uses up the outcomes in store from the front. -/
theorem whisperWriteValue_touches (conf : CarbonConf) (metric : CString) (timestamp : UInt32)
    (value : UInt64) (w : World Globals) :
    Ends w (whisperWriteValue conf metric timestamp value)
      (fun _ s => Touches (whisperMetricFilename conf.storageDir metric)
        (metricDirs conf.storageDir metric) w s ∧ s.outcomes <:+ w.outcomes)
      (fun _ s => Touches (whisperMetricFilename conf.storageDir metric)
        (metricDirs conf.storageDir metric) w s ∧ s.outcomes <:+ w.outcomes) := by
  have places : Places conf metric (whisperMetricFilename conf.storageDir metric)
      (metricDirs conf.storageDir metric) := ⟨rfl, fun _ => id⟩
  have both := whisperWriteValue_both places (.start (.refl _ _ w)) timestamp value
  refine both.ends.weaken ?_ ?_
  · rintro _ s ⟨_, _, _, alike⟩
    exact ⟨alike.left, alike.used⟩
  · rintro _ s ⟨_, alike⟩
    exact ⟨alike.left, alike.used⟩

end Carbond.Whisper
