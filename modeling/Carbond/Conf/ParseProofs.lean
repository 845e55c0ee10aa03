import Carbond.Conf.Parse

/-! The files never say whether the daemon should run. -/
namespace Carbond.Conf
open Text Posix

theorem setKey_run (newConf : CarbonConf) (cnfKey cnfVal : CString) :
    (setKey newConf cnfKey cnfVal).2.run = newConf.run := by
  unfold setKey
  split
  · rfl
  · split
    · rfl
    · split
      · rfl
      · split <;> rfl

theorem carbonLines_run (newConf : CarbonConf) (lines : List CString) :
    (carbonLines newConf lines).2.run = newConf.run := by
  induction lines generalizing newConf with
  | nil => rfl
  | cons buffer rest ih =>
    rw [carbonLines]
    split
    · rename_i cnfKey cnfVal _ _
      have key := setKey_run newConf cnfKey cnfVal
      split
      · rename_i set
        rw [set] at key
        exact (ih _).trans key
      · rename_i set
        rw [set] at key
        exact key
    · exact ih newConf

theorem confParseCarbonFile_run (files : Files) (newConf : CarbonConf) :
    (confParseCarbonFile files newConf).2.run = newConf.run := by
  unfold confParseCarbonFile
  split
  · rfl
  · exact carbonLines_run _ _

variable [Platform]

theorem confParseStorageSchemaFile_run (files : Files) (newConf : CarbonConf)
    (parsed : confParseStorageSchemaFile files newConf = .ok (status, result)) :
    result.run = newConf.run := by
  unfold confParseStorageSchemaFile at parsed
  split at parsed
  · cases parsed
    rfl
  · rename_i file _
    cases lines : schemaLines false [] (trimmedLines file) with
    | error fault =>
      rw [lines] at parsed
      exact nomatch parsed
    | ok schemas =>
      rw [lines] at parsed
      change (if schemas = [] then _ else _) = _ at parsed
      split at parsed
      · cases parsed
        rfl
      · cases parsed
        rfl

theorem confParseStorageAggregationFile_run (files : Files) (newConf : CarbonConf) :
    (confParseStorageAggregationFile files newConf).2.run = newConf.run := by
  unfold confParseStorageAggregationFile
  split <;> rfl

theorem confParse_run (files : Files) (newConf : CarbonConf)
    (parsed : confParse files newConf = .ok (status, result)) : result.run = newConf.run := by
  have carbon := confParseCarbonFile_run files newConf
  unfold confParse at parsed
  split at parsed
  · rename_i first opened
    rw [opened] at carbon
    refine Eq.trans ?_ carbon
    cases schema : confParseStorageSchemaFile files first with
    | error fault =>
      rw [schema] at parsed
      exact nomatch parsed
    | ok second =>
      obtain ⟨schemaStatus, second⟩ := second
      have kept := confParseStorageSchemaFile_run files first schema
      rw [schema] at parsed
      refine Eq.trans ?_ kept
      cases schemaStatus with
      | zero =>
        have last := confParseStorageAggregationFile_run files second
        have same := congrArg (·.2.run) (Except.ok.inj parsed)
        exact same.symm.trans last
      | succ _ =>
        cases parsed
        rfl
  · rename_i opened
    rw [opened] at carbon
    cases parsed
    exact carbon

end Carbond.Conf
