import Carbond.Common
import Carbond.Text.Scan

/-! The configuration files. A parse returns the status of the source, 0 on success, with the
configuration as far as it was filled in. -/
namespace Carbond.Conf
open Text Posix
variable [Platform]

/-- The configuration before any file is read. -/
def defaultConf (sysconfdir localstatedir : CString) : CarbonConf where
  schema := []
  aggregation := []
  confDir := sysconfdir
  confFile := sysconfdir ++ "/carbon.conf".toList
  storageDir := localstatedir
  lineReceiverPort := 2003
  udpReceiverPort := 2003
  run := true
  tracing := false
  logLevel := .info

def readBufMax : Nat := 300

/-- The files, by path; a file that cannot be opened is missing. -/
abbrev Files := CString → Option CString

/-- Fails where the source would dereference NULL. -/
abbrev Parse := Except Fault

/-- Removes spaces, tabs, `\r` and `\n`. -/
def trimString (string : CString) : CString :=
  (toNul string).filter fun c => c ≠ ' ' ∧ c ≠ '\t' ∧ c ≠ '\n' ∧ c ≠ '\r'

def stringStartsWith (string beginning : CString) : Bool :=
  string.length > beginning.length ∧ startsWith string beginning

/-- The lines of a file as the parsers see them. -/
def trimmedLines (file : CString) : List CString :=
  (fileLines (readBufMax - 3) file).map trimString

/-- `sscanf(buffer, "<key>%s", word)` for a buffer that starts with the key: the memory of the
word is as before if nothing matches. -/
def scanValue (buffer key before : CString) : CString :=
  match scanWord (buffer.drop key.length) with
  | some (word, _) => word
  | none => before

/-! ### Retentions -/

/-- The factor of the unit at the end, and the duration without its unit. -/
def splitUnit (strDuration : CString) : UInt32 × CString :=
  match strDuration.getLast? with
  | some 'w' => (86400 * 7, strDuration.dropLast)
  | some 'd' => (86400, strDuration.dropLast)
  | some 'h' => (3600, strDuration.dropLast)
  | some 's' => (1, strDuration.dropLast)
  | _ => (1, strDuration)

/-- Converts strings like 90d into seconds. A missing string is NULL. -/
def strToSeconds : Option CString → Parse UInt32
  | none => throw .nullDereference
  | some strDuration =>
    let (multiplier, digits) := splitUnit strDuration
    return UInt32.ofNat (strtoul digits) * multiplier

def parseRetentionItemStr (strRetentionItem : CString) : Parse Retention := do
  let tokens := strtok ':' strRetentionItem
  let timePerPoint ← strToSeconds tokens[0]?
  let timeToStore ← strToSeconds tokens[1]?
  return ⟨timePerPoint, timeToStore⟩

def parseRetentionListStr (strRetentionList : CString) : Parse (List Retention) :=
  (strtok ',' strRetentionList).mapM parseRetentionItemStr

/-! ### Storage schemas -/

/-- The last schema gets its retentions. -/
def setRetentions (strRetention : CString) (retentionList : List Retention) :
    List PatternRetention → List PatternRetention
  | [] => []
  | [last] => [{ last with strRetention := some strRetention, retentionList := retentionList }]
  | first :: rest => first :: setRetentions strRetention retentionList rest

/-- One line: whether a pattern waits for its retentions, and the schemas so far. -/
def schemaLine (patternFound : Bool) (schemas : List PatternRetention) (buffer : CString) :
    Parse (Bool × List PatternRetention) :=
  if ¬ patternFound then
    if stringStartsWith buffer "pattern=".toList then
      let pattern := scanValue buffer "pattern=".toList Platform.uninitialised
      return (true, schemas ++ [⟨pattern, none, []⟩])
    else return (false, schemas)
  else if stringStartsWith buffer "retentions=".toList then do
    let strRetention := scanValue buffer "retentions=".toList Platform.uninitialised
    let retentionList ← parseRetentionListStr strRetention
    return (false, setRetentions strRetention retentionList schemas)
  else return (true, schemas)

def schemaLines (patternFound : Bool) (schemas : List PatternRetention) :
    List CString → Parse (List PatternRetention)
  | [] => return schemas
  | buffer :: rest => do
    let (patternFound, schemas) ← schemaLine patternFound schemas buffer
    schemaLines patternFound schemas rest

/-- The path of a file in the configuration directory. The test for a slash at its end looks at
the terminating NUL, so a slash is always added. -/
def confPath (newConf : CarbonConf) (filename : CString) : CString :=
  newConf.confDir ++ '/' :: filename

/-- Without any pattern the schema stays as it was. -/
def confParseStorageSchemaFile (files : Files) (newConf : CarbonConf) : Parse (Nat × CarbonConf) :=
  match files (confPath newConf "storage-schemas.conf".toList) with
  | none => return (1, newConf)
  | some file => do
    let schemas ← schemaLines false [] (trimmedLines file)
    if schemas = [] then return (0, newConf)
    else return (0, { newConf with schema := schemas })

/-! ### Storage aggregation -/

/-- The local variables of the parser that outlive a line. -/
structure AggregationState where
  patternFound : Bool
  pattern : CString
  xffS : CString
  methodS : CString
  xff : UInt32
  method : AggregationType
  rules : List PatternAggregation

def confGetAggregationMethod (methodS : CString) : AggregationType :=
  if startsWith methodS "average".toList then .average
  else if startsWith methodS "sum".toList then .sum
  else if startsWith methodS "last".toList then .last
  else if startsWith methodS "max".toList then .max
  else if startsWith methodS "min".toList then .min
  else .undef

def aggregationLine (state : AggregationState) (buffer : CString) : AggregationState :=
  if ¬ state.patternFound then
    if stringStartsWith buffer "pattern=".toList then
      { state with
        patternFound := true
        pattern := scanValue buffer "pattern=".toList state.pattern }
    else state
  else if stringStartsWith buffer "xFilesFactor=".toList then
    let xffS := scanValue buffer "xFilesFactor=".toList state.xffS
    { state with xffS := xffS, xff := Platform.strtof xffS }
  else if stringStartsWith buffer "aggregationMethod=".toList then
    let methodS := scanValue buffer "aggregationMethod=".toList state.methodS
    let method := confGetAggregationMethod methodS
    { state with
      patternFound := false
      methodS := methodS
      method := method
      rules := state.rules ++ [⟨state.pattern, state.xff, method⟩] }
  else state

/-- The rules are added behind those the configuration has. -/
def confParseStorageAggregationFile (files : Files) (newConf : CarbonConf) : Nat × CarbonConf :=
  match files (confPath newConf "storage-aggregation.conf".toList) with
  | none => (1, newConf)
  | some file =>
    let start : AggregationState := ⟨false, Platform.uninitialised, Platform.uninitialised,
      Platform.uninitialised, 0, .undef, newConf.aggregation⟩
    (0, { newConf with aggregation := ((trimmedLines file).foldl aggregationLine start).rules })

/-! ### The main file -/

/-- One key and its value. -/
def setKey (newConf : CarbonConf) (cnfKey cnfVal : CString) : Nat × CarbonConf :=
  if startsWith cnfKey "CONF_DIR".toList then (0, { newConf with confDir := cnfVal })
  else if startsWith cnfKey "STORAGE_DIR".toList then (0, { newConf with storageDir := cnfVal })
  else if startsWith cnfKey "LINE_RECEIVER_PORT".toList then
    let (port, erange) := strtol cnfVal
    (if erange then 1 else 0, { newConf with lineReceiverPort := Int32.ofInt port })
  else if startsWith cnfKey "UDP_RECEIVER_PORT".toList then
    let (port, erange) := strtol cnfVal
    (if erange then 1 else 0, { newConf with udpReceiverPort := Int32.ofInt port })
  else (1, newConf)

/-- Lines without a key and a value are skipped; the first error ends the file. -/
def carbonLines (newConf : CarbonConf) : List CString → Nat × CarbonConf
  | [] => (0, newConf)
  | buffer :: rest =>
    match strtok '=' buffer with
    | cnfKey :: cnfVal :: _ =>
      match setKey newConf cnfKey cnfVal with
      | (0, newConf) => carbonLines newConf rest
      | (status, newConf) => (status, newConf)
    | _ => carbonLines newConf rest

def confParseCarbonFile (files : Files) (newConf : CarbonConf) : Nat × CarbonConf :=
  match files newConf.confFile with
  | none => (1, newConf)
  | some file => carbonLines newConf (trimmedLines file)

def confParse (files : Files) (newConf : CarbonConf) : Parse (Nat × CarbonConf) := do
  match confParseCarbonFile files newConf with
  | (0, newConf) =>
    match ← confParseStorageSchemaFile files newConf with
    | (0, newConf) => return confParseStorageAggregationFile files newConf
    | (status, newConf) => return (status, newConf)
  | (status, newConf) => return (status, newConf)

end Carbond.Conf
