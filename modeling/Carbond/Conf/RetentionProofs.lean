import Carbond.Conf.Lines

/-! The parsers of the retentions guard nothing: an item without both durations leads to a missing
string, and ends the parse where it stands. -/
namespace Carbond.Conf
open Text Posix

/-- A duration on either side of a colon. -/
def HasDurations (item : CString) : Prop := 2 ≤ (strtok ':' item).length

instance (item : CString) : Decidable (HasDurations item) := inferInstanceAs (Decidable (_ ≤ _))

/-- Every item of a list of retentions has both. -/
def Whole (text : CString) : Prop := ∀ item ∈ strtok ',' text, HasDurations item

/-! ### One list of retentions -/

/-- The two calls for the durations, and that neither gets an empty one. -/
theorem HasDurations.parse (has : HasDurations item) : ∃ first second rest,
    strtok ':' item = first :: second :: rest ∧ first ≠ [] ∧ second ≠ [] ∧
      parseRetentionItemStr item = (do
        let timePerPoint ← strToSeconds (some first)
        let timeToStore ← strToSeconds (some second)
        return ⟨timePerPoint, timeToStore⟩) := by
  unfold HasDurations at has
  cases tokens : strtok ':' item with
  | nil => rw [tokens] at has; contradiction
  | cons first more =>
    cases more with
    | nil => rw [tokens] at has; contradiction
    | cons second rest =>
      have some {piece : CString} (member : piece ∈ strtok ':' item) := (mem_strtok member).1
      refine ⟨first, second, rest, rfl, some (by simp [tokens]), some (by simp [tokens]), ?_⟩
      rw [parseRetentionItemStr]
      simp only [tokens]
      rfl

/-- Without one of them `strlen` is called with NULL. -/
theorem parseRetentionItemStr_fails (lacks : ¬ HasDurations item) :
    parseRetentionItemStr item = .error .nullDereference := by
  unfold HasDurations at lacks
  rw [parseRetentionItemStr]
  cases tokens : strtok ':' item with
  | nil => rfl
  | cons first more =>
    cases more with
    | nil => rfl
    | cons second rest =>
      rw [tokens] at lacks
      exact absurd (Nat.le_add_left 2 rest.length) lacks

theorem mapM_retentions (items : List CString) :
    (∀ item ∈ items, HasDurations item) ∧
        (∃ retentions, items.mapM parseRetentionItemStr = .ok retentions) ∨
      (∃ item ∈ items, ¬ HasDurations item) ∧
        items.mapM parseRetentionItemStr = .error .nullDereference := by
  induction items with
  | nil => exact .inl ⟨nofun, [], rfl⟩
  | cons item rest ih =>
    rw [List.mapM_cons]
    by_cases has : HasDurations item
    · obtain ⟨_, _, _, _, _, _, parsed⟩ := has.parse
      obtain ⟨all, retentions, later⟩ | ⟨⟨bad, member, lacks⟩, later⟩ := ih
      · rw [parsed, later]
        exact .inl ⟨List.forall_mem_cons.mpr ⟨has, all⟩, _, rfl⟩
      · rw [parsed, later]
        exact .inr ⟨⟨bad, List.mem_cons_of_mem _ member, lacks⟩, rfl⟩
    · rw [parseRetentionItemStr_fails has]
      exact .inr ⟨⟨item, List.mem_cons_self, has⟩, rfl⟩

theorem parseRetentionListStr_cases (text : CString) :
    Whole text ∧ (∃ retentions, parseRetentionListStr text = .ok retentions) ∨
      ¬ Whole text ∧ parseRetentionListStr text = .error .nullDereference := by
  obtain whole | ⟨⟨item, member, lacks⟩, failed⟩ := mapM_retentions (strtok ',' text)
  · exact .inl whole
  · exact .inr ⟨fun whole => lacks (whole item member), failed⟩

/-! ### The lines of the file -/

variable [Platform] {schemas : List PatternRetention} {buffer : CString} {rest : List CString}

theorem schemaLines_pattern (starts : stringStartsWith buffer "pattern=".toList = true) :
    schemaLines false schemas (buffer :: rest) = schemaLines true
      (schemas ++ [⟨scanValue buffer "pattern=".toList Platform.uninitialised, none, []⟩]) rest := by
  rw [schemaLines, schemaLine, if_pos Bool.false_ne_true, if_pos starts]
  rfl

theorem schemaLines_skips (other : stringStartsWith buffer "pattern=".toList = false) :
    schemaLines false schemas (buffer :: rest) = schemaLines false schemas rest := by
  rw [schemaLines, schemaLine, if_pos Bool.false_ne_true, other]
  rfl

theorem schemaLines_waits (other : stringStartsWith buffer "retentions=".toList = false) :
    schemaLines true schemas (buffer :: rest) = schemaLines true schemas rest := by
  rw [schemaLines, schemaLine, if_neg (not_not.mpr rfl), other]
  rfl

/-- The text of the retentions on a line for them. -/
def retentionText (buffer : CString) : CString :=
  scanValue buffer "retentions=".toList Platform.uninitialised

theorem schemaLines_retentions (starts : stringStartsWith buffer "retentions=".toList = true) :
    schemaLines true schemas (buffer :: rest) = (do
      let retentionList ← parseRetentionListStr (retentionText buffer)
      schemaLines false (setRetentions (retentionText buffer) retentionList schemas) rest) := by
  rw [schemaLines, schemaLine, if_neg (not_not.mpr rfl), if_pos starts]
  cases parsed : parseRetentionListStr (retentionText buffer) with
  | error fault =>
    rw [retentionText] at parsed
    simp only [parsed]
    rfl
  | ok retentions =>
    rw [retentionText] at parsed
    simp only [parsed]
    rfl

/-- The texts that are parsed: those on the first line for retentions behind each pattern. -/
def retentionTexts (patternFound : Bool) : List CString → List CString
  | [] => []
  | buffer :: rest =>
    if ¬ patternFound then retentionTexts (stringStartsWith buffer "pattern=".toList) rest
    else if stringStartsWith buffer "retentions=".toList then
      retentionText buffer :: retentionTexts false rest
    else retentionTexts true rest

theorem schemaLines_cases (patternFound : Bool) (schemas : List PatternRetention)
    (lines : List CString) :
    (∀ text ∈ retentionTexts patternFound lines, Whole text) ∧
        (∃ result, schemaLines patternFound schemas lines = .ok result) ∨
      (∃ text ∈ retentionTexts patternFound lines, ¬ Whole text) ∧
        schemaLines patternFound schemas lines = .error .nullDereference := by
  induction lines generalizing patternFound schemas with
  | nil => exact .inl ⟨nofun, schemas, rfl⟩
  | cons buffer rest ih =>
    rw [retentionTexts]
    cases patternFound with
    | false =>
      rw [if_pos Bool.false_ne_true]
      cases starts : stringStartsWith buffer "pattern=".toList with
      | false => rw [schemaLines_skips starts]; exact ih false schemas
      | true => rw [schemaLines_pattern starts]; exact ih true _
    | true =>
      rw [if_neg (not_not.mpr rfl)]
      cases starts : stringStartsWith buffer "retentions=".toList with
      | false => rw [schemaLines_waits starts]; exact ih true schemas
      | true =>
        rw [schemaLines_retentions starts, if_pos rfl]
        obtain ⟨whole, retentions, parsed⟩ | ⟨lacks, failed⟩ :=
          parseRetentionListStr_cases (retentionText buffer)
        · obtain ⟨all, result, later⟩ | ⟨⟨text, member, lacks⟩, later⟩ :=
            ih false (setRetentions (retentionText buffer) retentions schemas)
          · rw [parsed]
            exact .inl ⟨List.forall_mem_cons.mpr ⟨whole, all⟩, result, later⟩
          · rw [parsed]
            exact .inr ⟨⟨text, List.mem_cons_of_mem _ member, lacks⟩, later⟩
        · rw [failed]
          exact .inr ⟨⟨_, List.mem_cons_self, lacks⟩, rfl⟩

/-! ### All files -/

/-- The texts of retentions that a parse comes to: none if the main file is rejected or there is no
file for the schemas. -/
def parsedTexts (files : Files) (newConf : CarbonConf) : List CString :=
  match confParseCarbonFile files newConf with
  | (0, carbon) =>
    match files (confPath carbon "storage-schemas.conf".toList) with
    | some file => retentionTexts false (trimmedLines file)
    | none => []
  | _ => []

/-- The parse returns 0 or 1, and 1 if a retention lacks a duration; every string that is converted
to seconds is there and not empty. -/
structure Survives (files : Files) (newConf : CarbonConf) : Prop where
  returns : ∃ status conf', confParse files newConf = .ok (status, conf') ∧ status ≤ 1 ∧
    ((∃ text ∈ parsedTexts files newConf, ¬ Whole text) → status = 1)
  durations : ∀ text ∈ parsedTexts files newConf, ∀ item ∈ strtok ',' text,
    ∃ first second rest, strtok ':' item = first :: second :: rest ∧ first ≠ [] ∧ second ≠ []

omit [Platform] in
theorem carbonLines_status_le (newConf : CarbonConf) (lines : List CString) :
    (carbonLines newConf lines).1 ≤ 1 := by
  induction lines generalizing newConf with
  | nil => exact Nat.zero_le 1
  | cons buffer rest ih =>
    cases line : setting buffer with
    | none => rw [carbonLines_skip line]; exact ih newConf
    | some pair =>
      obtain ⟨cnfKey, cnfVal⟩ := pair
      rw [carbonLines_cons line]
      have small : (setKey newConf cnfKey cnfVal).1 ≤ 1 := by
        unfold setKey
        split
        · exact Nat.zero_le 1
        · split
          · exact Nat.zero_le 1
          · split
            · dsimp only
              split <;> decide
            · split
              · dsimp only
                split <;> decide
              · exact le_rfl
      cases set : setKey newConf cnfKey cnfVal with
      | mk status next =>
        rw [set] at small
        cases status with
        | zero => exact ih next
        | succ _ => exact small

omit [Platform] in
theorem confParseCarbonFile_status_le (files : Files) (newConf : CarbonConf) :
    (confParseCarbonFile files newConf).1 ≤ 1 := by
  unfold confParseCarbonFile
  split
  · exact le_rfl
  · exact carbonLines_status_le _ _

theorem confParseStorageAggregationFile_status_le (files : Files) (newConf : CarbonConf) :
    (confParseStorageAggregationFile files newConf).1 ≤ 1 := by
  unfold confParseStorageAggregationFile
  split
  · exact le_rfl
  · exact Nat.zero_le 1

/-- Without a retention that lacks a duration the parse returns; with one it does not. -/
theorem confParse_cases (files : Files) (newConf : CarbonConf) :
    (∀ text ∈ parsedTexts files newConf, Whole text) ∧
        (∃ status conf', confParse files newConf = .ok (status, conf') ∧ status ≤ 1) ∨
      (∃ text ∈ parsedTexts files newConf, ¬ Whole text) ∧
        confParse files newConf = .error .nullDereference := by
  have small := confParseCarbonFile_status_le files newConf
  rw [parsedTexts, confParse]
  cases first : confParseCarbonFile files newConf with
  | mk status carbon =>
    rw [first] at small
    cases status with
    | succ status => exact .inl ⟨nofun, _, carbon, rfl, small⟩
    | zero =>
      simp only [confParseStorageSchemaFile]
      cases opened : files (confPath carbon "storage-schemas.conf".toList) with
      | none => exact .inl ⟨nofun, 1, carbon, rfl, le_rfl⟩
      | some file =>
        obtain ⟨all, schemas, parsed⟩ | ⟨lacks, failed⟩ := schemaLines_cases false [] (trimmedLines file)
        · refine .inl ⟨all, ?_⟩
          simp only [parsed]
          have last := confParseStorageAggregationFile_status_le files
          by_cases none : schemas = []
          · simp only [none, bind, Except.bind, pure, Except.pure, if_true]
            exact ⟨_, _, rfl, last _⟩
          · simp only [none, bind, Except.bind, pure, Except.pure, if_false]
            exact ⟨_, _, rfl, last _⟩
        · refine .inr ⟨lacks, ?_⟩
          simp only [failed]
          rfl

end Carbond.Conf
