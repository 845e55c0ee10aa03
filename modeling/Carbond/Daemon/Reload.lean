import Carbond.Conf.Settings
import Carbond.Daemon.StopProofs

/-! Whole reloads, one after another and without a SIGINT: what becomes of the running
configuration depends on its own fields and on the files alone. -/
namespace Carbond.Daemon
open Text Posix Heap Conf Pc
variable [Platform]

/-- The statements that are next, at most so many. -/
def statements (files : Files) : ℕ → Main → Option Main
  | 0, main => some main
  | n + 1, main => if main.pc = .idle then some main else confReload files main >>= statements files n

/-- SIGHUP, with a handler that runs to its end: a reload has twelve statements. -/
def reload (files : Files) (main : Main) : Option Main := statements files 12 (sighupHandler main)

/-- What `conf_copy` makes of the configuration. -/
def confCopy (origConf : CarbonConf) : CarbonConf :=
  { origConf with schema := [], aggregation := [] }

/-- The configuration after a reload. -/
def reloaded (files : Files) (conf : CarbonConf) : Option CarbonConf :=
  match confParse files (confCopy conf) with
  | .ok (0, newConf) => some newConf
  | .ok _ => some conf
  | .error _ => none

/-- One SIGHUP after another, with the files as they are at each. -/
def reloads (later : List Files) (main : Main) : Option Main :=
  later.foldlM (fun main files => reload files main) main

/-- The configuration after all of these reloads. -/
def reloadedBy (later : List Files) (conf : CarbonConf) : Option CarbonConf :=
  later.foldlM (fun conf files => reloaded files conf) conf

theorem statements_succ {main : Main} (inside : main.pc ≠ .idle)
    (moved : confReload files main = some next) :
    statements files (n + 1) main = statements files n next := by
  rw [statements, if_neg inside, moved]
  rfl

theorem statements_idle {main : Main} (idle : main.pc = .idle) :
    statements files n main = some main := by
  cases n with
  | zero => rfl
  | succ n => rw [statements, if_pos idle]

/-- A reload works on a copy of its own. -/
structure Working (conf newConf : CarbonConf) (place : Pc) (main : Main) : Prop where
  pc : main.pc = place
  current : main.current = some conf
  apart : main.newConf ≠ main.conf
  copy : main.confs.cells main.newConf = some newConf

namespace Working
variable {main : Main}

omit [Platform] in
theorem modify (working : Working conf newConf place main) (f : CarbonConf → CarbonConf)
    (requestedAtCopy : Bool) (parseStatus : ℕ) (place' : Pc) :
    Working conf (f newConf) place' { main with
      confs := main.confs.modify main.newConf f
      requestedAtCopy := requestedAtCopy
      parseStatus := parseStatus
      pc := place' } where
  pc := rfl
  current := (Cells.modify_cells_other _ _ working.apart.symm).trans working.current
  apart := working.apart
  copy := Cells.modify_cells _ working.copy

theorem calloc (files : Files) (current : main.current = some conf) : ∃ next,
    confReload files (sighupHandler main) = some next ∧ Working conf zeroedConf .memcpy next :=
  ⟨_, rfl, rfl, Cells.alloc_cells_old _ current, Nat.ne_of_gt (Cells.lt_next current),
    Cells.alloc_cells _ _⟩

theorem memcpy (files : Files) (working : Working conf newConf .memcpy main) : ∃ next,
    confReload files main = some next ∧ Working conf conf .resetLists next := by
  refine ⟨_, ?_, working.modify (fun _ => conf) main.requested main.parseStatus _⟩
  simp only [confReload, working.pc, working.current, Option.map_some]

theorem resetLists (files : Files) (working : Working conf newConf .resetLists main) : ∃ next,
    confReload files main = some next ∧
      Working conf { newConf with schema := [], aggregation := [] } .copyStrings next := by
  refine ⟨_, ?_, working.modify (fun destConf => { destConf with schema := [], aggregation := [] })
    main.requestedAtCopy main.parseStatus _⟩
  simp only [confReload, working.pc]

theorem copyStrings (files : Files) (working : Working conf (confCopy conf) .copyStrings main) :
    ∃ next,
    confReload files main = some next ∧
      Working conf (confCopy conf) .parseCarbonFile next := by
  refine ⟨_, ?_, working.modify (fun destConf =>
    { destConf with
      confDir := conf.confDir
      confFile := conf.confFile
      storageDir := conf.storageDir }) main.requestedAtCopy main.parseStatus _⟩
  simp only [confReload, working.pc, working.current, Option.map_some]

theorem step (working : Working conf newConf place main) (inside : place ≠ .idle)
    (moved : confReload files main = some next) :
    statements files (n + 1) main = statements files n next :=
  statements_succ (by rwa [working.pc]) moved

/-- The first four statements copy the configuration. -/
theorem copied (files : Files) (n : ℕ) (current : main.current = some conf) : ∃ next,
    statements files (n + 4) (sighupHandler main) = statements files n next ∧
      Working conf (confCopy conf) .parseCarbonFile next := by
  obtain ⟨_, called, allocated⟩ := calloc files current
  obtain ⟨_, taken, filled⟩ := allocated.memcpy files
  obtain ⟨_, cleared, reset⟩ := filled.resetLists files
  obtain ⟨next, duplicated, ready⟩ := reset.copyStrings files
  refine ⟨next, ?_, ready⟩
  rw [statements_succ Pc.noConfusion called, allocated.step Pc.noConfusion taken,
    filled.step Pc.noConfusion cleared, reset.step Pc.noConfusion duplicated]

omit [Platform] in
theorem parsedNext (working : Working conf newConf place main) (next : Pc)
    (result : ℕ × CarbonConf) :
    Working conf result.2 (if result.1 = 0 then next else .testStatus)
      (parsed main next result) :=
  working.modify (fun _ => result.2) main.requestedAtCopy result.1 _

/-- The last statements install the copy if it was parsed without an error. -/
theorem finish (files : Files) (n : ℕ) (working : Working conf newConf .testStatus main) : ∃ next,
    statements files (n + 5) main = some next ∧
      next.current = some (if main.parseStatus = 0 then newConf else conf) := by
  have tested : confReload files main =
      some { main with pc := if main.parseStatus = 0 then .pauseAll else .idle } := by
    simp only [confReload, working.pc]
  rw [statements_succ (by rw [working.pc]; exact Pc.noConfusion) tested]
  split
  · refine ⟨{ main with confs := main.confs.free main.conf, conf := main.newConf, pc := .idle },
      ?_, (Cells.free_cells_other _ working.apart).trans working.copy⟩
    rw [statements_succ Pc.noConfusion rfl, statements_succ Pc.noConfusion rfl,
      statements_succ Pc.noConfusion rfl, statements_succ Pc.noConfusion rfl, statements_idle rfl]
  · exact ⟨_, statements_idle rfl, working.current⟩

end Working

/-- A reload depends on the current configuration and the files. -/
theorem reload_current (files : Files) {main : Main} (current : main.current = some conf) :
    (reload files main).map Main.current = (reloaded files conf).map some := by
  obtain ⟨main', copied, working⟩ := Working.copied files 8 current
  rw [reload, copied, reloaded, confParse]
  have carbon : confReload files main' = some (parsed main' .parseStorageSchemaFile
      (confParseCarbonFile files (confCopy conf))) := by
    simp only [confReload, working.pc, working.copy, Option.map_some]
  rw [working.step Pc.noConfusion carbon]
  have working := working.parsedNext .parseStorageSchemaFile
    (confParseCarbonFile files (confCopy conf))
  cases first : confParseCarbonFile files (confCopy conf) with
  | mk status carbonConf =>
    rw [first] at working
    cases status with
    | succ _ =>
      obtain ⟨next, ended, kept⟩ := working.finish files 2
      rw [ended]
      exact congrArg some kept
    | zero =>
      generalize parsed main' .parseStorageSchemaFile (0, carbonConf) = main' at working ⊢
      cases second : confParseStorageSchemaFile files carbonConf with
      | error fault =>
        have faulted : confReload files main' = none := by
          simp only [confReload, working.pc, working.copy, Option.map_some, second, reduceIte]
        rw [statements, if_neg (by rw [working.pc]; exact Pc.noConfusion), faulted]
        simp only [second, bind, Except.bind]
        rfl
      | ok result =>
        have schema : confReload files main' =
            some (parsed main' .parseStorageAggregationFile result) := by
          simp only [confReload, working.pc, working.copy, Option.map_some, second, reduceIte]
        rw [working.step Pc.noConfusion schema]
        have working := working.parsedNext .parseStorageAggregationFile result
        obtain ⟨status, withSchema⟩ := result
        cases status with
        | succ _ =>
          obtain ⟨next, ended, kept⟩ := working.finish files 1
          rw [ended]
          simp only [second, bind, Except.bind, pure, Except.pure]
          exact congrArg some kept
        | zero =>
          generalize parsed main' .parseStorageAggregationFile (0, withSchema) = main'
            at working ⊢
          have aggregation : confReload files main' = some (parsed main' .testStatus
              (confParseStorageAggregationFile files withSchema)) := by
            simp only [confReload, working.pc, working.copy, Option.map_some, reduceIte]
          rw [working.step Pc.noConfusion aggregation]
          have working := working.parsedNext .testStatus
            (confParseStorageAggregationFile files withSchema)
          rw [ite_self] at working
          obtain ⟨next, ended, kept⟩ := working.finish files 0
          rw [ended]
          simp only [second, bind, Except.bind, pure, Except.pure]
          refine (congrArg some kept).trans ?_
          cases third : confParseStorageAggregationFile files withSchema with
          | mk status newConf => cases status <;> rfl

/-- The reloads that are accepted, in their order. -/
def accepted (conf : CarbonConf) : List Files → List Files
  | [] => []
  | files :: rest =>
    match confParse files (confCopy conf) with
    | .ok (0, newConf) => files :: accepted newConf rest
    | _ => accepted conf rest

/-- The value of a key in the latest main file that sets it. -/
def latestValue (key confFile : CString) (sources : List Files) : Option CString :=
  sources.reverse.findSome? fun files =>
    (files confFile).bind fun file => lastValue key (trimmedLines file)

/-- The fields that are no lists: what the latest main file says that says something, and else
what they were at startup. -/
structure Follows (startup : CarbonConf) (sources : List Files) (conf : CarbonConf) : Prop where
  confDir : conf.confDir =
    (latestValue "CONF_DIR".toList startup.confFile sources).getD startup.confDir
  storageDir : conf.storageDir =
    (latestValue "STORAGE_DIR".toList startup.confFile sources).getD startup.storageDir
  lineReceiverPort : conf.lineReceiverPort =
    ((latestValue "LINE_RECEIVER_PORT".toList startup.confFile sources).map fun value =>
      Int32.ofInt (strtol value).1).getD startup.lineReceiverPort
  udpReceiverPort : conf.udpReceiverPort =
    ((latestValue "UDP_RECEIVER_PORT".toList startup.confFile sources).map fun value =>
      Int32.ofInt (strtol value).1).getD startup.udpReceiverPort
  confFile : conf.confFile = startup.confFile
  tracing : conf.tracing = startup.tracing
  logLevel : conf.logLevel = startup.logLevel
  run : conf.run = startup.run

omit [Platform] in
theorem latestValue_cons (key confFile : CString) (files : Files) (rest : List Files) :
    latestValue key confFile (files :: rest) =
      (latestValue key confFile rest).or (latestValue key confFile [files]) := by
  simp only [latestValue, List.reverse_cons, List.findSome?_append, List.reverse_nil,
    List.nil_append]

omit [Platform] in
theorem Follows.refl (conf : CarbonConf) : Follows conf [] conf := by
  constructor <;> rfl

/-- What one accepted set of files makes of a configuration. -/
theorem follows_accepted (parsed : confParse files (confCopy conf) = .ok (0, newConf)) :
    Follows conf [files] newConf := by
  obtain ⟨main, carbon, opened, lines, same, _⟩ := (confParse_accepted rfl rfl).mp parsed
  have opened : files conf.confFile = some main := opened
  have fields := carbonLines_accepted lines
  rw [same, fields]
  have latest : ∀ key, latestValue key conf.confFile [files] = lastValue key (trimmedLines main) := by
    intro key
    simp [latestValue, opened]
  constructor
  · rw [latest]
    rfl
  · rw [latest]
    rfl
  · rw [latest]
    rfl
  · rw [latest]
    rfl
  · rfl
  · rfl
  · rfl
  · rfl

omit [Platform] in
theorem Follows.trans (first : Follows startup [files] conf) (later : Follows conf rest last) :
    Follows startup (files :: rest) last := by
  have file := first.confFile
  constructor
  · rw [later.confDir, first.confDir, file, latestValue_cons _ _ _ rest, Option.getD_or]
  · rw [later.storageDir, first.storageDir, file, latestValue_cons _ _ _ rest, Option.getD_or]
  · rw [later.lineReceiverPort, first.lineReceiverPort, file, latestValue_cons _ _ _ rest,
      Option.map_or, Option.getD_or]
  · rw [later.udpReceiverPort, first.udpReceiverPort, file, latestValue_cons _ _ _ rest,
      Option.map_or, Option.getD_or]
  · exact later.confFile.trans file
  · exact later.tracing.trans first.tracing
  · exact later.logLevel.trans first.logLevel
  · exact later.run.trans first.run

omit [Platform] in
theorem getD_again (value : Option α) (old : α) : value.getD (value.getD old) = value.getD old := by
  cases value <;> rfl

/-- Over a configuration that these files have made they change nothing. -/
theorem confParse_again (schema : conf.schema = []) (aggregation : conf.aggregation = [])
    (parsed : confParse files conf = .ok (0, newConf)) :
    confParse files (confCopy newConf) = .ok (0, newConf) := by
  obtain ⟨main, carbon, opened, lines, same, lists⟩ :=
    (confParse_accepted schema aggregation).mp parsed
  have fields := carbonLines_accepted lines
  refine (confParse_accepted rfl rfl).mpr ⟨main, confCopy newConf, ?_, ?_, rfl, lists⟩
  · rw [same, fields]
    exact opened
  · cases again : carbonLines (confCopy newConf) (trimmedLines main) with
    | mk status carbon' =>
      have zero := carbonLines_status (confCopy newConf) conf (trimmedLines main)
      rw [again, lines] at zero
      obtain rfl : status = 0 := zero
      have fields' := carbonLines_accepted again
      rw [fields', same, fields]
      simp only [confCopy, getD_again]

theorem reloaded_again (once : reloaded files conf = some newConf) :
    reloaded files newConf = some newConf := by
  unfold reloaded at once
  split at once
  · rename_i parsed
    cases once
    rw [reloaded, confParse_again rfl rfl parsed]
    rfl
  · rename_i rejected parsed
    cases once
    rw [reloaded, parsed]
    split
    · rename_i accepted
      cases accepted
      exact (rejected _ rfl).elim
    · rfl
    · contradiction
  · contradiction

/-- Reloads one after another, as configurations. -/
theorem reloads_current {main : Main} (current : main.current = some conf)
    (run : reloads later main = some last) :
    ∃ conf', last.current = some conf' ∧ reloadedBy later conf = some conf' := by
  induction later generalizing main conf with
  | nil =>
    cases run
    exact ⟨conf, current, rfl⟩
  | cons files rest ih =>
    have first := reload_current files current
    rw [reloads, List.foldlM_cons] at run
    rw [reloadedBy, List.foldlM_cons]
    cases moved : reload files main with
    | none =>
      rw [moved] at run
      exact nomatch run
    | some next =>
      rw [moved] at first run
      obtain ⟨conf', made, same⟩ := Option.map_eq_some_iff.mp first.symm
      rw [made]
      exact ih same.symm run

/-- Files that change nothing do so any number of times. -/
theorem reloads_settled (settled : reloaded files conf = some conf) (n : ℕ) {main : Main}
    (current : main.current = some conf) : ∃ last,
    reloads (List.replicate n files) main = some last ∧ last.current = some conf := by
  induction n generalizing main with
  | zero => exact ⟨main, rfl, current⟩
  | succ n ih =>
    have first := reload_current files current
    rw [settled] at first
    obtain ⟨next, moved, same⟩ := Option.map_eq_some_iff.mp first
    rw [List.replicate_succ, reloads, List.foldlM_cons, moved]
    exact ih same

/-- A whole history of reloads, as configurations. -/
theorem reloads_follow (lists : Lists latest startup) (settled : reloaded last startup = some startup)
    (made : reloadedBy later startup = some conf) :
    Follows startup (accepted startup later) conf ∧
      Lists ((accepted startup later).getLastD latest) conf ∧
      reloaded (later.getLastD last) conf = some conf := by
  induction later generalizing startup latest last with
  | nil =>
    cases made
    exact ⟨.refl _, lists, settled⟩
  | cons files rest ih =>
    rw [reloadedBy, List.foldlM_cons] at made
    rw [List.getLastD_cons]
    cases once : reloaded files startup with
    | none =>
      rw [once] at made
      exact nomatch made
    | some next =>
      rw [once] at made
      have again := reloaded_again once
      unfold reloaded at once
      rw [accepted]
      split at once
      · rename_i parsed
        cases once
        obtain ⟨_, _, _, _, _, lists⟩ := (confParse_accepted rfl rfl).mp parsed
        obtain ⟨follows, lists, settled⟩ := ih lists again made
        simp only [parsed, List.getLastD_cons]
        exact ⟨(follows_accepted parsed).trans follows, lists, settled⟩
      · rename_i rejected parsed
        cases once
        have others := ih lists again made
        rw [parsed]
        split
        · rename_i accepted
          cases accepted
          exact (rejected _ rfl).elim
        · exact others
      · contradiction

end Carbond.Daemon
