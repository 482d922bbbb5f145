import ScanTriage.Log
import ScanTriage.Text.Space
import ScanTriage.Toml.Document
import ScanTriage.FileSystem.Path
import ScanTriage.FileSystem.Program

/-!
# Configuration

Settings come from five places: the defaults, a global file, a project file,
the environment and the command line. Each place yields a `Layer` of the
settings it makes after its own checks, and a later layer is laid over the
earlier ones.
-/

namespace ScanTriage

structure Config where
  /-- How many recognized findings a run reviews. -/
  maxFindings : Int64 := 200
  workers : Int64 := 1
  logLevel : LogLevel := .warn
  logFormat : LogFormat := .console
  logFile : Bytes := []
  /-- Where history and lock are kept; if empty, in the project. -/
  stateDir : Bytes := []
  historyEnabled : Bool := true
  /-- So many records stay in the active history file; zero means all. -/
  historyMaxRecords : Int64 := 1000
  deriving DecidableEq

structure Layer where
  maxFindings : Option Int64 := none
  workers : Option Int64 := none
  logLevel : Option LogLevel := none
  logFormat : Option LogFormat := none
  logFile : Option Bytes := none
  stateDir : Option Bytes := none
  historyEnabled : Option Bool := none
  historyMaxRecords : Option Int64 := none
  deriving DecidableEq

namespace Config

def overlay (c : Config) (l : Layer) : Config where
  maxFindings := l.maxFindings.getD c.maxFindings
  workers := l.workers.getD c.workers
  logLevel := l.logLevel.getD c.logLevel
  logFormat := l.logFormat.getD c.logFormat
  logFile := l.logFile.getD c.logFile
  stateDir := l.stateDir.getD c.stateDir
  historyEnabled := l.historyEnabled.getD c.historyEnabled
  historyMaxRecords := l.historyMaxRecords.getD c.historyMaxRecords

def effectiveStateDir (c : Config) (root : Bytes) : Bytes :=
  if c.stateDir.isEmpty then Path.join [root, ".wpcc"] else c.stateDir

end Config

namespace LogFormat

def name : LogFormat → Bytes
  | console => "console"
  | json => "json"

def ofName? (text : Bytes) : Option LogFormat := [console, json].find? (·.name == text)

end LogFormat

namespace Layer

/-- A word as it is compared: in lower case and without space around it. -/
def normalize (word : Bytes) : Bytes := Text.trim (Text.lower word)

def level? (word : Bytes) : Option LogLevel :=
  [LogLevel.debug, .info, .warn, .error].find? (·.name == normalize word)

def format? (word : Bytes) : Option LogFormat := LogFormat.ofName? (normalize word)

/-- A choice that is made unless its word is empty, and refused with
`message` if the word is not known. -/
def choice {α : Type} (message : Bytes) (parse : Bytes → Option α) :
    Option Bytes → Except Fault (Option α)
  | none => .ok none
  | some word =>
    if word.isEmpty then .ok none
    else
      match parse word with
      | some found => .ok (some found)
      | none => .error (.plain message)

/-- Only positive numbers of workers count. -/
def positive (n : Option Int64) : Option Int64 := n.filter (0 < ·)

def nonEmpty (text : Option Bytes) : Option Bytes := text.filter fun t => !t.isEmpty

def atLeastZero (message : Bytes) : Option Int64 → Except Fault (Option Int64)
  | none => .ok none
  | some n => if n < 0 then .error (.plain message) else .ok (some n)

/-! ## Files -/

/-- The value of a setting: the member of that name, or else one that differs
in letter case only. -/
def setting? (name : Bytes) (members : Toml.Members) : Option Toml.Item :=
  match members.lookup name with
  | some item => some item
  | none => (members.find? fun (n, _) => Text.isNamed name n).map (·.2)

/-- Whether all members of a name have the type that `read` takes. -/
def allTyped {α : Type} (name : Bytes) (read : Toml.Item → Option α) (members : Toml.Members) :
    Bool :=
  members.all fun (n, item) => !Text.isNamed name n || (read item).isSome

/-- A typed setting: nothing if it is missing, a failure if a member of that
name is of another type. -/
def typed? {α : Type} (name : Bytes) (read : Toml.Item → Option α) (members : Toml.Members) :
    Option (Option α) :=
  if allTyped name read members then some ((setting? name members).bind read) else none

def integer? : Toml.Item → Option Int64
  | .value (.integer n) => some n
  | _ => none

def string? : Toml.Item → Option Bytes
  | .value (.string s) => some s
  | _ => none

def boolean? : Toml.Item → Option Bool
  | .value (.boolean b) => some b
  | _ => none

structure FileSettings where
  maxFindings : Option Int64
  workers : Option Int64
  logLevel : Option Bytes
  logFormat : Option Bytes
  logFile : Option Bytes
  stateDir : Option Bytes
  historyEnabled : Option Bool
  historyMaxRecords : Option Int64

def settings? (members : Toml.Members) : Option FileSettings := do
  some
    { maxFindings := ← typed? "max_findings" integer? members
      workers := ← typed? "workers" integer? members
      logLevel := ← typed? "log_level" string? members
      logFormat := ← typed? "log_format" string? members
      logFile := ← typed? "log_file" string? members
      stateDir := ← typed? "state_dir" string? members
      historyEnabled := ← typed? "history_enabled" boolean? members
      historyMaxRecords := ← typed? "history_max_records" integer? members }

def fileSettings? (text : Bytes) : Option FileSettings := (Toml.read? text).bind settings?

/-- The layer of a file. A number of workers that is not positive, a negative
bound for the history and empty texts other than the log file are passed over. -/
def ofFile (s : FileSettings) : Except Fault Layer := do
  let maxFindings ← atLeastZero "Configuration max_findings must be non-negative." s.maxFindings
  let logLevel ← choice "Configuration log_level must be debug, info, warn or error." level? s.logLevel
  let logFormat ← choice "Configuration log_format must be console or json." format? s.logFormat
  pure
    { maxFindings := maxFindings
      workers := positive s.workers
      logLevel := logLevel
      logFormat := logFormat
      logFile := s.logFile
      stateDir := nonEmpty s.stateDir
      historyEnabled := s.historyEnabled
      historyMaxRecords := s.historyMaxRecords.filter (0 ≤ ·) }

/-- The layer of the file at a path, an empty one if there is no file. -/
def read (path : Bytes) : FileTask Layer := do
  match ← (FileProgram.perform (.stat path) : FileProgram _) with
  | .error fault =>
    if fault.reason == .notFound then pure {}
    else throw (.user "Invalid configuration file." fault.toFault)
  | .ok _ =>
    let text ← .orTell "Could not read configuration file." (.perform (.read path))
    match fileSettings? text with
    | none =>
      throw (.user ("Invalid configuration in " ++ path ++ ".") (.plain "toml: not a configuration"))
    | some settings =>
      match ofFile settings with
      | .ok layer => pure layer
      | .error fault => throw fault

/-! ## Environment -/

def value? (name assignment : Bytes) : Option Bytes :=
  match Bytes.cut? Bytes.equals assignment with
  | some (key, value) =>
    if !key.isEmpty && Text.trim key == name then some (Text.trim value) else none
  | none => none

/-- The value of a variable: of assignments that repeat, the last counts. -/
def assigned? (name : Bytes) (environment : List Bytes) : Option Bytes :=
  environment.reverse.findSome? (value? name)

def numeralFault (numeral : Bytes) (why : Integer.Refusal) : Fault :=
  .plain ("strconv.ParseInt: parsing " ++ Text.quoted numeral ++ ": " ++
    match why with
    | .form => ("invalid syntax" : Bytes)
    | .range => "value out of range")

/-- A number from the environment, which must not be negative. -/
def number (name : Bytes) (environment : List Bytes) : Except Fault (Option Int64) :=
  match nonEmpty (assigned? name environment) with
  | none => .ok none
  | some numeral =>
    match Integer.readDecimal numeral with
    | .error why => .error (.user (name ++ " must be a valid number.") (numeralFault numeral why))
    | .ok n => atLeastZero (name ++ " must be non-negative.") (some n)

def answer? (word : Bytes) : Option Bool :=
  let word := Text.lower (Text.trim word)
  if word == "1" || word == "true" || word == "yes" || word == "on" then some true
  else if word == "0" || word == "false" || word == "no" || word == "off" then some false
  else none

def answer (name : Bytes) (environment : List Bytes) : Except Fault (Option Bool) :=
  match nonEmpty (assigned? name environment) with
  | none => .ok none
  | some word =>
    match answer? word with
    | some b => .ok (some b)
    | none =>
      .error (.user (name ++ " must be 1/true/yes/on or 0/false/no/off.")
        (.plain ("invalid boolean " ++ Text.quoted word)))

def ofEnvironment (environment : List Bytes) : Except Fault Layer := do
  let maxFindings ← number "WPCC_TRIAGE_MAX_FINDINGS" environment
  let workers ← number "WPCC_TRIAGE_WORKERS" environment
  let logLevel ← choice "WPCC_TRIAGE_LOG_LEVEL must be debug, info, warn or error." level?
    (assigned? "WPCC_TRIAGE_LOG_LEVEL" environment)
  let logFormat ← choice "WPCC_TRIAGE_LOG_FORMAT must be console or json." format?
    (assigned? "WPCC_TRIAGE_LOG_FORMAT" environment)
  let historyEnabled ← answer "WPCC_TRIAGE_HISTORY_ENABLED" environment
  let historyMaxRecords ← number "WPCC_TRIAGE_HISTORY_MAX_RECORDS" environment
  pure
    { maxFindings := maxFindings
      workers := positive workers
      logLevel := logLevel
      logFormat := logFormat
      logFile := assigned? "WPCC_TRIAGE_LOG_FILE" environment
      stateDir := assigned? "WPCC_TRIAGE_STATE_DIR" environment
      historyEnabled := historyEnabled
      historyMaxRecords := historyMaxRecords }

/-! ## Command line -/

structure Overrides where
  maxFindings : Option Int64 := none
  workers : Option Int64 := none
  logLevel : Option Bytes := none
  logFormat : Option Bytes := none
  logFile : Option Bytes := none
  stateDir : Option Bytes := none
  historyEnabled : Option Bool := none

def ofOverrides (o : Overrides) : Except Fault Layer := do
  let maxFindings ← atLeastZero "--max-findings must be non-negative." o.maxFindings
  let logLevel ← choice "Invalid log level; use debug, info, warn or error." level? o.logLevel
  let logFormat ← choice "Invalid log format; use console or json." format? o.logFormat
  pure
    { maxFindings := maxFindings
      workers := positive o.workers
      logLevel := logLevel
      logFormat := logFormat
      logFile := o.logFile
      stateDir := o.stateDir
      historyEnabled := o.historyEnabled }

end Layer

namespace Config

def projectFile : Bytes := ".wpcc/triage.toml"

structure Sources where
  /-- The root of the project; if empty, there is no project file. -/
  root : Bytes := []
  globalFile : Bytes
  environment : List Bytes := []
  overrides : Layer.Overrides := {}

def give : Except Fault Layer → FileTask Layer
  | .ok layer => pure layer
  | .error fault => throw fault

/-- The defaults with every layer laid over them in turn. -/
def load (s : Sources) : FileTask Config := do
  let globalLayer ← Layer.read s.globalFile
  let projectLayer ← if s.root.isEmpty then pure {} else Layer.read (Path.join [s.root, projectFile])
  let environmentLayer ← give (Layer.ofEnvironment s.environment)
  let overrideLayer ← give (Layer.ofOverrides s.overrides)
  pure ((((({} : Config).overlay globalLayer).overlay projectLayer).overlay environmentLayer).overlay
    overrideLayer)

/-- The global file when none is named: in the directory for configurations
that the environment gives. -/
def defaultGlobalFile (environment : List Bytes) : Except Fault Bytes :=
  let get (name : Bytes) : Bytes :=
    ((environment.reverse.findSome? fun assignment =>
      match Bytes.cut? Bytes.equals assignment with
      | some (key, value) => if key == name then some value else none
      | none => none).getD [])
  let tell (cause : Bytes) : Fault := .user "Could not determine config directory." (.plain cause)
  let named := get "XDG_CONFIG_HOME"
  let home := get "HOME"
  if named.isEmpty then
    if home.isEmpty then .error (tell "neither $XDG_CONFIG_HOME nor $HOME are defined")
    else .ok (Path.join [home ++ "/.config", "wpcc-triage", "config.toml"])
  else if Path.isAbsolute named then .ok (Path.join [named, "wpcc-triage", "config.toml"])
  else .error (tell "path in $XDG_CONFIG_HOME is relative")

end Config

end ScanTriage
