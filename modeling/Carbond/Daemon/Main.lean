import Carbond.Conf.Parse
import Carbond.Heap.Cells
import Carbond.Transition.Runs

/-! The main thread once the workers are launched: it waits, and its signal handlers run. A
handler for SIGHUP reloads the configuration and may itself be interrupted by SIGINT. -/
namespace Carbond.Daemon
open Text Posix Heap Conf
variable [Platform]

/-- An option that `getopt_long` found. -/
inductive Argument where
  | conf (optarg : CString)
  | debug

/-- The path is copied without its terminating NUL, into memory that was not cleared. -/
def parseArg (conf : CarbonConf) : Argument → CarbonConf
  | .conf optarg => { conf with confFile := optarg ++ Platform.uninitialised }
  | .debug => { conf with tracing := true, logLevel := .debug }

def parseArgs (conf : CarbonConf) (argv : List Argument) : CarbonConf := argv.foldl parseArg conf

/-- The configuration with which `main` goes on to launch its threads. -/
def Launched (conf : CarbonConf) : Prop :=
  ∃ sysconfdir localstatedir argv files,
    confParse files (parseArgs (defaultConf sysconfdir localstatedir) argv) = .ok (0, conf)

/-- What `calloc` gives. -/
def zeroedConf : CarbonConf where
  schema := []
  aggregation := []
  confDir := []
  confFile := []
  storageDir := []
  lineReceiverPort := 0
  udpReceiverPort := 0
  run := false
  tracing := false
  logLevel := .quiet

/-- The statement of `conf_reload` that is next; `idle` outside of it. -/
inductive Pc where
  | idle
  | calloc
  | memcpy
  | resetLists
  | copyStrings
  | parseCarbonFile
  | parseStorageSchemaFile
  | parseStorageAggregationFile
  | testStatus
  | pauseAll
  | confFree
  | install
  | resumeAll
  deriving DecidableEq

/-- `newConf` and `parseStatus` are the locals of `conf_reload`. The last two fields record what
happened: whether `sigint_handler` has stored into `conf->run`, and whether it had at the last
`memcpy`. -/
structure Main where
  confs : Cells CarbonConf
  conf : ℕ
  pc : Pc
  newConf : ℕ
  parseStatus : Nat
  requested : Bool
  requestedAtCopy : Bool

def launch (conf : CarbonConf) : Main where
  confs := Cells.empty.alloc conf
  conf := 0
  pc := .idle
  newConf := 0
  parseStatus := 0
  requested := false
  requestedAtCopy := false

/-- The configuration that the global pointer leads to, if it is still there. -/
def Main.current (main : Main) : Option CarbonConf := main.confs.cells main.conf

/-- `conf->run = false`, wherever `conf` leads. -/
def sigintHandler (main : Main) : Main :=
  { main with
    confs := main.confs.modify main.conf fun conf => { conf with run := false }
    requested := true }

omit [Platform] in
theorem sigintHandler_current (main : Main) :
    (sigintHandler main).current = main.current.map fun conf => { conf with run := false } :=
  Cells.modify_cells_self _ _ _

def sighupHandler (main : Main) : Main := { main with pc := .calloc }

/-- After one of the parsers: the next one, or the test of what it returned. -/
def parsed (main : Main) (next : Pc) (result : Nat × CarbonConf) : Main :=
  { main with
    confs := main.confs.modify main.newConf fun _ => result.2
    parseStatus := result.1
    pc := if result.1 = 0 then next else .testStatus }

/-- The next statement of `conf_reload`. Some stand for several stores, of which at most one is to
`run` or to the global pointer. Where the source would dereference NULL there is no next state. -/
def confReload (files : Files) (main : Main) : Option Main :=
  match main.pc with
  | .idle => none
  | .calloc =>
    some { main with
      confs := main.confs.alloc zeroedConf
      newConf := main.confs.next
      pc := .memcpy }
  | .memcpy =>
    main.current.map fun origConf =>
      { main with
        confs := main.confs.modify main.newConf fun _ => origConf
        requestedAtCopy := main.requested
        pc := .resetLists }
  | .resetLists =>
    some { main with
      confs := main.confs.modify main.newConf fun destConf =>
        { destConf with schema := [], aggregation := [] }
      pc := .copyStrings }
  | .copyStrings =>
    main.current.map fun origConf =>
      { main with
        confs := main.confs.modify main.newConf fun destConf =>
          { destConf with
            confDir := origConf.confDir
            confFile := origConf.confFile
            storageDir := origConf.storageDir }
        pc := .parseCarbonFile }
  | .parseCarbonFile =>
    (main.confs.cells main.newConf).map fun newConf =>
      parsed main .parseStorageSchemaFile (confParseCarbonFile files newConf)
  | .parseStorageSchemaFile =>
    match (main.confs.cells main.newConf).map (confParseStorageSchemaFile files) with
    | some (.ok result) => some (parsed main .parseStorageAggregationFile result)
    | _ => none
  | .parseStorageAggregationFile =>
    (main.confs.cells main.newConf).map fun newConf =>
      parsed main .testStatus (confParseStorageAggregationFile files newConf)
  | .testStatus => some { main with pc := if main.parseStatus = 0 then .pauseAll else .idle }
  | .pauseAll => some { main with pc := .confFree }
  | .confFree => some { main with confs := main.confs.free main.conf, pc := .install }
  | .install => some { main with conf := main.newConf, pc := .resumeAll }
  | .resumeAll => some { main with pc := .idle }

/-- SIGINT comes at any moment; SIGHUP is blocked while its handler runs. The files may change
between two reads. -/
inductive Step : Main → Main → Prop
  | sigint (main) : Step main (sigintHandler main)
  | sighup (main) : main.pc = .idle → Step main (sighupHandler main)
  | reload (files) : confReload files main = some next → Step main next

end Carbond.Daemon
