import Carbond.Blocks.Parse
import Carbond.Daemon.Reload

/-! Start and reloads of the configuration with its blocks: the copy, the parse, and the free of what
is replaced. -/
namespace Carbond.Blocks
open Heap Posix Text Conf
variable [Platform]

/-! ### Start -/

def defaultConf (sysconfdir localstatedir : CString) (conf : Addr) : Step Unit := do
  store .conf (some conf) fun c => { c with run := true }
  store .conf (some conf) fun c => { c with tracing := false, logLevel := .info }
  let confDir ← newText pathMax sysconfdir
  store .conf (some conf) fun c => { c with confDir := some confDir }
  let confFile ← newText pathMax (sysconfdir ++ "/carbon.conf".toList)
  store .conf (some conf) fun c => { c with confFile := some confFile }
  let storageDir ← newText pathMax localstatedir
  store .conf (some conf) fun c => { c with storageDir := some storageDir }
  store .conf (some conf) fun c => { c with lineReceiverPort := 2003, udpReceiverPort := 2003 }
  store .conf (some conf) fun c => { c with schema := none, aggregation := none }

def parseArg (conf : Addr) : Daemon.Argument → Step Unit
  | .conf optarg => do
    free (← load .conf (some conf)).confFile
    let confFile ← malloc pathMax
    store .conf (some conf) fun c => { c with confFile := some confFile }
    -- Neither cleared nor terminated.
    storeText (some confFile) (optarg ++ (← load .text (some confFile)).contents)
  | .debug => store .conf (some conf) fun c => { c with tracing := true, logLevel := .debug }

def parseArgs (conf : Addr) : List Daemon.Argument → Step Unit
  | [] => return ()
  | argument :: rest => do
    parseArg conf argument
    parseArgs conf rest

/-- What `calloc` gives. -/
def zeroedConf : CarbonConfT where
  schema := none
  aggregation := none
  confDir := none
  confFile := none
  storageDir := none
  lineReceiverPort := 0
  udpReceiverPort := 0
  run := false
  tracing := false
  logLevel := .quiet

/-- The beginning of `main`: the status of the parse, and the configuration. -/
def start (sysconfdir localstatedir : CString) (argv : List Daemon.Argument) (files : Files) :
    Step (ℕ × Addr) := do
  let conf ← calloc .conf zeroedConf
  defaultConf sysconfdir localstatedir conf
  parseArgs conf argv
  let status ← confParse files conf
  return (status, conf)

/-! ### Copy and free -/

def confCopy (origConf destConf : Addr) : Step Unit := do
  let orig ← load .conf (some origConf)
  store .conf (some destConf) fun _ => orig
  store .conf (some destConf) fun dest => { dest with schema := none }
  store .conf (some destConf) fun dest => { dest with aggregation := none }
  let confDir ← newText pathMax (← load .text orig.confDir).contents
  store .conf (some destConf) fun dest => { dest with confDir := some confDir }
  let confFile ← newText pathMax (← load .text orig.confFile).contents
  store .conf (some destConf) fun dest => { dest with confFile := some confFile }
  let storageDir ← newText pathMax (← load .text orig.storageDir).contents
  store .conf (some destConf) fun dest => { dest with storageDir := some storageDir }

def freeRetentions : ℕ → Option Addr → Step Unit
  | _, none => return ()
  | 0, some _ => throw .unfinished
  | steps + 1, some ret => do
    let nRet := (← load .retention (some ret)).next
    free (some ret)
    freeRetentions steps nRet

def freeSchema : ℕ → Option Addr → Step Unit
  | _, none => return ()
  | 0, some _ => throw .unfinished
  | steps + 1, some pret => do
    let nPret := (← load .patternRetention (some pret)).next
    free (← load .patternRetention (some pret)).strPattern
    store .patternRetention (some pret) fun s => { s with strPattern := none }
    free (← load .patternRetention (some pret)).strRetention
    store .patternRetention (some pret) fun s => { s with strRetention := none }
    let ret := (← load .patternRetention (some pret)).retentionList
    freeRetentions (← get).next ret
    store .patternRetention (some pret) fun s => { s with retentionList := none }
    free (some pret)
    freeSchema steps nPret

def freeAggregation : ℕ → Option Addr → Step Unit
  | _, none => return ()
  | 0, some _ => throw .unfinished
  | steps + 1, some agg => do
    let nAgg := (← load .patternAggregation (some agg)).next
    free (← load .patternAggregation (some agg)).pattern
    free (some agg)
    freeAggregation steps nAgg

def confFree (c : Addr) : Step Unit := do
  free (← load .conf (some c)).confDir
  free (← load .conf (some c)).confFile
  free (← load .conf (some c)).storageDir
  let pret := (← load .conf (some c)).schema
  freeSchema (← get).next pret
  store .conf (some c) fun conf => { conf with schema := none }
  let agg := (← load .conf (some c)).aggregation
  freeAggregation (← get).next agg
  store .conf (some c) fun conf => { conf with aggregation := none }
  free (some c)

/-- The configuration that is current afterwards. The pause of the threads is not part of it. -/
def confReload (files : Files) (conf : Addr) : Step Addr := do
  let newConf ← calloc .conf zeroedConf
  confCopy conf newConf
  let parseStatus ← confParse files newConf
  if parseStatus ≠ 0 then return conf
  else
    confFree conf
    return newConf

/-- One SIGHUP after another, with the files as they are at each. -/
def confReloads : List Files → Addr → Step Addr
  | [], conf => return conf
  | files :: later, conf => do
    let conf ← confReload files conf
    confReloads later conf

end Carbond.Blocks
