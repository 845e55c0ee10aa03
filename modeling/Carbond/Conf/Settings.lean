import Carbond.Conf.ParseProofs

/-! What accepted files make of a configuration: a key has the value of its last line in the main
file, and the two lists are those of the other files. -/
namespace Carbond.Conf
open Text Posix

/-- The key and the value on a line of the main file, if it has both. -/
def setting (buffer : CString) : Option (CString × CString) :=
  match strtok '=' buffer with
  | cnfKey :: cnfVal :: _ => some (cnfKey, cnfVal)
  | _ => none

/-- The value on the last line for a key. -/
def lastValue (key : CString) (lines : List CString) : Option CString :=
  ((lines.filterMap setting).filter fun pair => startsWith pair.1 key).getLast?.map Prod.snd

theorem lastValue_skip (unset : setting buffer = none) :
    lastValue key (buffer :: rest) = lastValue key rest := by
  rw [lastValue, List.filterMap_cons_none unset, lastValue]

theorem lastValue_cons (set : setting buffer = some (cnfKey, cnfVal)) :
    lastValue key (buffer :: rest) =
      (lastValue key rest).or (if startsWith cnfKey key then some cnfVal else none) := by
  rw [lastValue, List.filterMap_cons_some set, lastValue, List.filter_cons]
  split
  · rw [List.getLast?_cons]
    cases (List.filter _ (List.filterMap setting rest)).getLast? <;> rfl
  · rw [Option.or_none]

theorem carbonLines_skip (unset : setting buffer = none) :
    carbonLines newConf (buffer :: rest) = carbonLines newConf rest := by
  rw [setting] at unset
  rw [carbonLines]
  rcases tokens : strtok '=' buffer with _ | ⟨cnfKey, _ | ⟨cnfVal, _⟩⟩
  · rfl
  · rfl
  · rw [tokens] at unset
    contradiction

theorem carbonLines_cons (set : setting buffer = some (cnfKey, cnfVal)) :
    carbonLines newConf (buffer :: rest) =
      match setKey newConf cnfKey cnfVal with
      | (0, newConf) => carbonLines newConf rest
      | (status, newConf) => (status, newConf) := by
  rw [setting] at set
  rw [carbonLines]
  rcases tokens : strtok '=' buffer with _ | ⟨cnfKey, _ | ⟨cnfVal, _⟩⟩ <;> rw [tokens] at set
  · contradiction
  · contradiction
  · cases set
    rfl

theorem or_ite_getD (later : Option α) (found : Prop) [Decidable found] (value old : α) :
    (later.or (if found then some value else none)).getD old =
      later.getD (if found then value else old) := by
  cases later with
  | some _ => rfl
  | none => split <;> rfl

theorem startsWith_head (starts : startsWith string (first :: beginning) = true) :
    string.head? = some first := by
  cases string with
  | nil => contradiction
  | cons c rest =>
    obtain ⟨rfl, _⟩ := by simpa [startsWith, List.isPrefixOf] using starts
    rfl

/-- The four keys begin with different letters. -/
theorem startsWith_unique (starts : startsWith cnfKey (first :: beginning) = true)
    (other : first ≠ first') : startsWith cnfKey (first' :: beginning') = false := by
  cases same : startsWith cnfKey (first' :: beginning') with
  | false => rfl
  | true =>
    have head := startsWith_head same
    rw [startsWith_head starts] at head
    exact (other (Option.some.inj head)).elim

/-- An accepted line sets the field of its key and leaves all others. -/
theorem setKey_sets (set : setKey conf cnfKey cnfVal = (0, conf')) :
    conf' = { conf with
      confDir := if startsWith cnfKey "CONF_DIR".toList then cnfVal else conf.confDir
      storageDir := if startsWith cnfKey "STORAGE_DIR".toList then cnfVal else conf.storageDir
      lineReceiverPort :=
        if startsWith cnfKey "LINE_RECEIVER_PORT".toList then Int32.ofInt (strtol cnfVal).1
        else conf.lineReceiverPort
      udpReceiverPort :=
        if startsWith cnfKey "UDP_RECEIVER_PORT".toList then Int32.ofInt (strtol cnfVal).1
        else conf.udpReceiverPort } := by
  have apart {c c' : Char} {key key' : CString} (other : c ≠ c')
      (starts : startsWith cnfKey (c :: key) = true) : startsWith cnfKey (c' :: key') = false :=
    startsWith_unique starts other
  unfold setKey at set
  split at set
  · rename_i confDir
    cases set
    have storageDir : startsWith cnfKey "STORAGE_DIR".toList = false :=
      apart (by decide) confDir
    have line : startsWith cnfKey "LINE_RECEIVER_PORT".toList = false :=
      apart (by decide) confDir
    have udp : startsWith cnfKey "UDP_RECEIVER_PORT".toList = false :=
      apart (by decide) confDir
    simp only [confDir, storageDir, line, udp, reduceIte, Bool.false_eq_true]
  · rename_i confDir
    split at set
    · rename_i storageDir
      cases set
      have line : startsWith cnfKey "LINE_RECEIVER_PORT".toList = false :=
        apart (by decide) storageDir
      have udp : startsWith cnfKey "UDP_RECEIVER_PORT".toList = false :=
        apart (by decide) storageDir
      simp only [confDir, storageDir, line, udp, reduceIte, Bool.false_eq_true]
    · rename_i storageDir
      split at set
      · rename_i line
        have udp : startsWith cnfKey "UDP_RECEIVER_PORT".toList = false :=
          apart (by decide) line
        simp only [confDir, storageDir, line, udp, reduceIte, Bool.false_eq_true]
        exact (congrArg Prod.snd set).symm
      · rename_i line
        split at set
        · rename_i udp
          simp only [confDir, storageDir, line, udp, reduceIte]
          exact (congrArg Prod.snd set).symm
        · exact nomatch set

/-- What an accepted main file makes of a configuration. -/
theorem carbonLines_accepted (accepted : carbonLines conf lines = (0, conf')) :
    conf' = { conf with
      confDir := (lastValue "CONF_DIR".toList lines).getD conf.confDir
      storageDir := (lastValue "STORAGE_DIR".toList lines).getD conf.storageDir
      lineReceiverPort :=
        ((lastValue "LINE_RECEIVER_PORT".toList lines).map fun value =>
          Int32.ofInt (strtol value).1).getD conf.lineReceiverPort
      udpReceiverPort :=
        ((lastValue "UDP_RECEIVER_PORT".toList lines).map fun value =>
          Int32.ofInt (strtol value).1).getD conf.udpReceiverPort } := by
  induction lines generalizing conf with
  | nil =>
    cases accepted
    rfl
  | cons buffer rest ih =>
    cases line : setting buffer with
    | none =>
      rw [carbonLines_skip line] at accepted
      simp only [lastValue_skip line]
      exact ih accepted
    | some pair =>
      obtain ⟨cnfKey, cnfVal⟩ := pair
      rw [carbonLines_cons line] at accepted
      split at accepted
      · rename_i next set
        rw [ih accepted, setKey_sets set]
        simp only [lastValue_cons line, or_ite_getD, Option.map_or, apply_ite (Option.map _),
          Option.map_some, Option.map_none]
      · rename_i failed _
        cases accepted
        exact (failed rfl).elim

theorem setKey_status (conf conf' : CarbonConf) (cnfKey cnfVal : CString) :
    (setKey conf cnfKey cnfVal).1 = (setKey conf' cnfKey cnfVal).1 := by
  simp only [setKey]
  split
  · rfl
  · split
    · rfl
    · split
      · rfl
      · split <;> rfl

/-- Whether a main file is accepted does not depend on what it is read over. -/
theorem carbonLines_status (conf conf' : CarbonConf) (lines : List CString) :
    (carbonLines conf lines).1 = (carbonLines conf' lines).1 := by
  induction lines generalizing conf conf' with
  | nil => rfl
  | cons buffer rest ih =>
    cases line : setting buffer with
    | none =>
      rw [carbonLines_skip line, carbonLines_skip line]
      exact ih _ _
    | some pair =>
      obtain ⟨cnfKey, cnfVal⟩ := pair
      rw [carbonLines_cons line, carbonLines_cons line]
      have same := setKey_status conf conf' cnfKey cnfVal
      cases first : setKey conf cnfKey cnfVal with
      | mk status next =>
        cases second : setKey conf' cnfKey cnfVal with
        | mk status' next' =>
          rw [first, second] at same
          obtain rfl : status = status' := same
          cases status with
          | zero => exact ih _ _
          | succ _ => rfl

section
variable [Platform]

/-- The rules that an aggregation file has by itself. -/
def aggregationRules (file : CString) : List PatternAggregation :=
  ((trimmedLines file).foldl aggregationLine ⟨false, Platform.uninitialised,
    Platform.uninitialised, Platform.uninitialised, 0, .undef, []⟩).rules

/-- The two lists are those of the files in the configuration directory. -/
structure Lists (files : Files) (conf : CarbonConf) : Prop where
  schema : ∃ file, files (confPath conf "storage-schemas.conf".toList) = some file ∧
    schemaLines false [] (trimmedLines file) = .ok conf.schema
  aggregation : ∃ file, files (confPath conf "storage-aggregation.conf".toList) = some file ∧
    conf.aggregation = aggregationRules file

theorem confParseStorageSchemaFile_accepted (fresh : conf.schema = []) :
    confParseStorageSchemaFile files conf = .ok (0, conf') ↔
      ∃ file schemas, files (confPath conf "storage-schemas.conf".toList) = some file ∧
        schemaLines false [] (trimmedLines file) = .ok schemas ∧
        conf' = { conf with schema := schemas } := by
  unfold confParseStorageSchemaFile
  cases opened : files (confPath conf "storage-schemas.conf".toList) with
  | none => simp [pure, Except.pure]
  | some file =>
    cases lines : schemaLines false [] (trimmedLines file) with
    | error fault => simp [lines, bind, Except.bind]
    | ok schemas =>
      have kept (none : schemas = []) : conf = { conf with schema := schemas } := by
        rw [none, ← fresh]
      simp only [lines, bind, Except.bind, pure, Except.pure]
      split
      · rename_i none
        simp [lines, ← kept none, eq_comm]
      · simp [lines, eq_comm]

theorem confParseStorageAggregationFile_accepted (files : Files) (conf : CarbonConf)
    (fresh : conf.aggregation = []) :
    confParseStorageAggregationFile files conf = (0, conf') ↔
      ∃ file, files (confPath conf "storage-aggregation.conf".toList) = some file ∧
        conf' = { conf with aggregation := aggregationRules file } := by
  unfold confParseStorageAggregationFile
  cases opened : files (confPath conf "storage-aggregation.conf".toList) with
  | none => simp
  | some file => simp [aggregationRules, fresh, eq_comm]

theorem confParse_zero : confParse files conf = .ok (0, conf') ↔
    ∃ carbon withSchema, confParseCarbonFile files conf = (0, carbon) ∧
      confParseStorageSchemaFile files carbon = .ok (0, withSchema) ∧
      confParseStorageAggregationFile files withSchema = (0, conf') := by
  unfold confParse
  cases first : confParseCarbonFile files conf with
  | mk status carbon =>
    cases status with
    | succ _ => simp [pure, Except.pure]
    | zero =>
      cases second : confParseStorageSchemaFile files carbon with
      | error fault => simp [second, bind, Except.bind]
      | ok parsed =>
        obtain ⟨status, withSchema⟩ := parsed
        cases status <;> simp [second, bind, Except.bind, pure, Except.pure]

theorem confParse_accepted (schema : conf.schema = []) (aggregation : conf.aggregation = []) :
    confParse files conf = .ok (0, conf') ↔
      ∃ main carbon, files conf.confFile = some main ∧
        carbonLines conf (trimmedLines main) = (0, carbon) ∧
        conf' = { carbon with schema := conf'.schema, aggregation := conf'.aggregation } ∧
        Lists files conf' := by
  rw [confParse_zero]
  constructor
  · rintro ⟨carbon, withSchema, first, second, third⟩
    unfold confParseCarbonFile at first
    split at first
    · exact nomatch first
    · rename_i main opened
      have fields := carbonLines_accepted first
      have fresh : carbon.schema = [] ∧ carbon.aggregation = [] := by
        rw [fields]
        exact ⟨schema, aggregation⟩
      obtain ⟨file, schemas, found, lines, rfl⟩ :=
        (confParseStorageSchemaFile_accepted fresh.1).mp second
      obtain ⟨file', found', rfl⟩ := (confParseStorageAggregationFile_accepted files
        { carbon with schema := schemas } fresh.2).mp third
      exact ⟨main, carbon, opened, first, rfl, ⟨file, found, lines⟩, ⟨file', found', rfl⟩⟩
  · rintro ⟨main, carbon, opened, first, same, ⟨file, found, lines⟩, ⟨file', found', rules⟩⟩
    have fields := carbonLines_accepted first
    have fresh : carbon.schema = [] ∧ carbon.aggregation = [] := by
      rw [fields]
      exact ⟨schema, aggregation⟩
    have path (name : CString) : confPath conf' name = confPath carbon name := by rw [same]; rfl
    rw [path] at found found'
    refine ⟨carbon, { carbon with schema := conf'.schema }, ?_,
      (confParseStorageSchemaFile_accepted fresh.1).mpr ⟨file, _, found, lines, rfl⟩,
      (confParseStorageAggregationFile_accepted files { carbon with schema := conf'.schema }
        fresh.2).mpr ⟨file', found', ?_⟩⟩
    · rw [confParseCarbonFile, opened]
      exact first
    · rw [← rules]
      exact same

end

end Carbond.Conf
