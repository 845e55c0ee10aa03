import Carbond.Blocks.Memory
import Carbond.Conf.SchemaProofs

/-! The parsers of the configuration files with the blocks they allocate, link and free. What they
make of single lines is that of the parsers on lists. -/
namespace Carbond.Blocks
open Heap Posix Text Conf
variable [Platform]

def pathMax : ℕ := 4096

def ofParse : Parse α → Step α
  | .ok a => return a
  | .error fault => throw fault

/-! ### Retentions -/

def parseRetentionItemStr (strRetentionItem : CString) : Step Addr := do
  let retentionRes ← calloc .retention ⟨0, 0, none⟩
  let tokens := strtok ':' strRetentionItem
  let timePerPoint ← ofParse (strToSeconds tokens[0]?)
  store .retention (some retentionRes) fun ret => { ret with timePerPoint := timePerPoint }
  let timeToStore ← ofParse (strToSeconds tokens[1]?)
  store .retention (some retentionRes) fun ret => { ret with timeToStore := timeToStore }
  store .retention (some retentionRes) fun ret => { ret with next := none }
  return retentionRes

/-- The items behind the first one, each linked to the one before. -/
def parseRetentionItems (curRetention : Option Addr) : List CString → Step Unit
  | [] => return ()
  | strRetentionItem :: rest => do
    let next ← parseRetentionItemStr strRetentionItem
    store .retention curRetention fun ret => { ret with next := some next }
    parseRetentionItems (some next) rest

def parseRetentionListStr (strRetentionList : CString) : Step (Option Addr) := do
  let tmpStrSave ← newText (strRetentionList.length + 1) strRetentionList
  match strtok ',' strRetentionList with
  | [] =>
    free (some tmpStrSave)
    return none
  | strRetentionItem :: rest =>
    let retentionList ← parseRetentionItemStr strRetentionItem
    parseRetentionItems (some retentionList) rest
    free (some tmpStrSave)
    return some retentionList

/-! ### Storage schemas -/

/-- The local variables of the parser that outlive a line. -/
structure SchemaState where
  patternFound : Bool
  curPatternRetention : Option Addr
  first : Option Addr

/-- The pattern of a new schema. -/
def fillPattern (cur : Addr) (buffer : CString) : Step Unit := do
  let strPattern ← malloc patternMax
  store .patternRetention (some cur) fun schema => { schema with strPattern := some strPattern }
  store .patternRetention (some cur) fun schema => { schema with next := none }
  storeText (some strPattern)
    (scanValue buffer "pattern=".toList (← load .text (some strPattern)).contents)

/-- The retentions of the schema. -/
def fillRetentions (cur : Option Addr) (buffer : CString) : Step Unit := do
  let strRetention ← malloc retentionMax
  store .patternRetention cur fun schema => { schema with strRetention := some strRetention }
  let contents := scanValue buffer "retentions=".toList (← load .text (some strRetention)).contents
  storeText (some strRetention) contents
  let retentionList ← parseRetentionListStr contents
  store .patternRetention cur fun schema => { schema with retentionList := retentionList }

def schemaLine (newConf : Addr) (state : SchemaState) (buffer : CString) : Step SchemaState := do
  if ¬ state.patternFound then
    if stringStartsWith buffer "pattern=".toList then
      match state.first with
      | none =>
        let first ← calloc .patternRetention ⟨none, none, none, none⟩
        store .conf (some newConf) fun conf => { conf with schema := some first }
        fillPattern first buffer
        return ⟨true, some first, some first⟩
      | some first =>
        let next ← calloc .patternRetention ⟨none, none, none, none⟩
        store .patternRetention state.curPatternRetention fun schema => { schema with next := some next }
        fillPattern next buffer
        return ⟨true, some next, some first⟩
    else return state
  else if stringStartsWith buffer "retentions=".toList then
    fillRetentions state.curPatternRetention buffer
    return { state with patternFound := false }
  else return state

def schemaLines (newConf : Addr) (state : SchemaState) : List CString → Step Unit
  | [] => return ()
  | buffer :: rest => do
    let state ← schemaLine newConf state buffer
    schemaLines newConf state rest

/-- `fopen` and `fclose` allocate and free a block too. -/
def fopen : Step Addr := allocate .file

def confParseStorageSchemaFile (files : Files) (newConf : Addr) : Step ℕ := do
  let confDir ← load .text (← load .conf (some newConf)).confDir
  match files (confDir.contents ++ '/' :: "storage-schemas.conf".toList) with
  | none => return 1
  | some file =>
    let fh ← fopen
    schemaLines newConf ⟨false, none, none⟩ (trimmedLines file)
    free (some fh)
    return 0

/-! ### Storage aggregation -/

/-- The last rule of a list that is not empty. -/
def lastAggregation : ℕ → Option Addr → Step (Option Addr)
  | 0, _ => throw .unfinished
  | steps + 1, agg => do
    match (← load .patternAggregation agg).next with
    | none => return agg
    | some next => lastAggregation steps (some next)

/-- A new rule behind those there are. -/
def newAggregation (newConf : Addr) : Step Addr := do
  match (← load .conf (some newConf)).aggregation with
  | some first =>
    let last ← lastAggregation (← get).next (some first)
    let agg ← calloc .patternAggregation ⟨none, 0, .undef, none⟩
    store .patternAggregation last fun rule => { rule with next := some agg }
    return agg
  | none =>
    let agg ← calloc .patternAggregation ⟨none, 0, .undef, none⟩
    store .conf (some newConf) fun conf => { conf with aggregation := some agg }
    return agg

/-- For the pattern `strlen(pattern+1)` bytes are asked for, and `strlen(pattern)+1` are written. -/
def confAddPatternAggregation (newConf : Addr) (pattern : CString) (xff : UInt32)
    (method : AggregationType) : Step Unit := do
  let agg ← newAggregation newConf
  let copy ← newText (pattern.drop 1).length pattern
  store .patternAggregation (some agg) fun rule => { rule with pattern := some copy }
  store .patternAggregation (some agg) fun rule => { rule with xff := xff }
  store .patternAggregation (some agg) fun rule => { rule with method := method }
  store .patternAggregation (some agg) fun rule => { rule with next := none }

/-- The local variables of the parser that outlive a line. -/
structure AggregationLocals where
  patternFound : Bool
  pattern : CString
  xffS : CString
  methodS : CString
  xff : UInt32
  method : AggregationType

def aggregationLine (newConf : Addr) (locals : AggregationLocals) (buffer : CString) :
    Step AggregationLocals := do
  if ¬ locals.patternFound then
    if stringStartsWith buffer "pattern=".toList then
      return { locals with
        patternFound := true
        pattern := scanValue buffer "pattern=".toList locals.pattern }
    else return locals
  else if stringStartsWith buffer "xFilesFactor=".toList then
    let xffS := scanValue buffer "xFilesFactor=".toList locals.xffS
    return { locals with xffS := xffS, xff := Platform.strtof xffS }
  else if stringStartsWith buffer "aggregationMethod=".toList then
    let methodS := scanValue buffer "aggregationMethod=".toList locals.methodS
    let method := confGetAggregationMethod methodS
    confAddPatternAggregation newConf locals.pattern locals.xff method
    return { locals with patternFound := false, methodS := methodS, method := method }
  else return locals

def aggregationLines (newConf : Addr) (locals : AggregationLocals) : List CString → Step Unit
  | [] => return ()
  | buffer :: rest => do
    let locals ← aggregationLine newConf locals buffer
    aggregationLines newConf locals rest

def confParseStorageAggregationFile (files : Files) (newConf : Addr) : Step ℕ := do
  let confDir ← load .text (← load .conf (some newConf)).confDir
  match files (confDir.contents ++ '/' :: "storage-aggregation.conf".toList) with
  | none => return 1
  | some file =>
    let fh ← fopen
    aggregationLines newConf ⟨false, Platform.uninitialised, Platform.uninitialised,
      Platform.uninitialised, 0, .undef⟩ (trimmedLines file)
    free (some fh)
    return 0

/-! ### The main file -/

def setKey (newConf : Addr) (cnfKey cnfVal : CString) : Step ℕ := do
  if startsWith cnfKey "CONF_DIR".toList then
    free (← load .conf (some newConf)).confDir
    store .conf (some newConf) fun conf => { conf with confDir := none }
    let confDir ← newText pathMax cnfVal
    store .conf (some newConf) fun conf => { conf with confDir := some confDir }
    return 0
  else if startsWith cnfKey "STORAGE_DIR".toList then
    free (← load .conf (some newConf)).storageDir
    store .conf (some newConf) fun conf => { conf with storageDir := none }
    let storageDir ← newText pathMax cnfVal
    store .conf (some newConf) fun conf => { conf with storageDir := some storageDir }
    return 0
  else if startsWith cnfKey "LINE_RECEIVER_PORT".toList then
    let (port, erange) := strtol cnfVal
    store .conf (some newConf) fun conf => { conf with lineReceiverPort := Int32.ofInt port }
    return if erange then 1 else 0
  else if startsWith cnfKey "UDP_RECEIVER_PORT".toList then
    let (port, erange) := strtol cnfVal
    store .conf (some newConf) fun conf => { conf with udpReceiverPort := Int32.ofInt port }
    return if erange then 1 else 0
  else return 1

def carbonLines (newConf : Addr) : List CString → Step ℕ
  | [] => return 0
  | buffer :: rest =>
    match strtok '=' buffer with
    | cnfKey :: cnfVal :: _ => do
      let status ← setKey newConf cnfKey cnfVal
      if status = 0 then carbonLines newConf rest else return status
    | _ => carbonLines newConf rest

/-- The buffer and the file are left behind where the source returns early. -/
def confParseCarbonFile (files : Files) (newConf : Addr) : Step ℕ := do
  let readBuffer ← malloc readBufMax
  let confFile ← load .text (← load .conf (some newConf)).confFile
  match files confFile.contents with
  | none => return 1
  | some file =>
    let confFh ← fopen
    let status ← carbonLines newConf (trimmedLines file)
    if status = 0 then
      free (some confFh)
      free (some readBuffer)
      return 0
    else return status

def confParse (files : Files) (newConf : Addr) : Step ℕ := do
  let status ← confParseCarbonFile files newConf
  if status ≠ 0 then return status
  else
    let status ← confParseStorageSchemaFile files newConf
    if status ≠ 0 then return status
    else confParseStorageAggregationFile files newConf

end Carbond.Blocks
