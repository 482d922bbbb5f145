import ScanTriage.Config
import ScanTriage.FileSystem.Tree
import ScanTriage.Proofs.Number.Numerals
import ScanTriage.Proofs.Text.Search

/-!
# What a place says

The places that settings come from are files, the environment and the command
line. `Place.Sets` tells which value a place gives to a field and `Place.checks`
what can be wrong with it, each from what stands there: the last assignment to
a variable, the member of a decoded table, and the words and numerals in them.
-/

namespace ScanTriage

open Integer (IsInteger Refuses)

/-! ## Fields -/

inductive Field where
  | maxFindings
  | workers
  | logLevel
  | logFormat
  | logFile
  | stateDir
  | historyEnabled
  | historyMaxRecords

namespace Field

abbrev Value : Field → Type
  | maxFindings => Int64
  | workers => Int64
  | logLevel => LogLevel
  | logFormat => LogFormat
  | logFile => Bytes
  | stateDir => Bytes
  | historyEnabled => Bool
  | historyMaxRecords => Int64

def default : (f : Field) → f.Value
  | maxFindings => (200 : Int64)
  | workers => (1 : Int64)
  | logLevel => LogLevel.warn
  | logFormat => LogFormat.console
  | logFile => ([] : Bytes)
  | stateDir => ([] : Bytes)
  | historyEnabled => true
  | historyMaxRecords => (1000 : Int64)

end Field

namespace Config

def get (c : Config) : (f : Field) → f.Value
  | .maxFindings => c.maxFindings
  | .workers => c.workers
  | .logLevel => c.logLevel
  | .logFormat => c.logFormat
  | .logFile => c.logFile
  | .stateDir => c.stateDir
  | .historyEnabled => c.historyEnabled
  | .historyMaxRecords => c.historyMaxRecords

end Config

/-! ## Words -/

/-- A word that is not empty stands for a name, in lower case and without space
around it. -/
def Spells (given : Bytes → Prop) (name : Bytes) : Prop :=
  ∃ word, given word ∧ word ≠ [] ∧ Text.trim (Text.lower word) = name

/-- A numeral that is not empty stands for a number. -/
def Counts (given : Bytes → Prop) (n : Int64) : Prop :=
  ∃ numeral, given numeral ∧ numeral ≠ [] ∧ IsInteger numeral n.toInt

def yesWords : List Bytes := ["1", "true", "yes", "on"]

def noWords : List Bytes := ["0", "false", "no", "off"]

/-- A word that is not empty is a yes or a no. -/
def Replies (given : Bytes → Prop) (b : Bool) : Prop :=
  ∃ word, given word ∧ word ≠ [] ∧ Text.lower (Text.trim word) ∈ if b then yesWords else noWords

/-! ## Variables -/

/-- An assignment: a name up to the first equals sign, which is not empty, and a
value, both without the space around them. -/
def Assigns (assignment name value : Bytes) : Prop :=
  ∃ key raw, assignment = key ++ Bytes.equals :: raw ∧ key ≠ [] ∧ Bytes.equals ∉ key ∧
    Text.trim key = name ∧ Text.trim raw = value

/-- The value of a variable is the last that is assigned to it. -/
def HasVariable (environment : List Bytes) (name value : Bytes) : Prop :=
  ∃ before assignment after, environment = before ++ assignment :: after ∧
    Assigns assignment name value ∧ ∀ a ∈ after, ∀ v, ¬ Assigns a name v

/-! ## Tables -/

/-- What a setting is in a decoded table: the member of its name, or, if there is
none, the first one whose name differs in letter case only. -/
inductive HasSetting (members : Toml.Members) (name : Bytes) (item : Toml.Item) : Prop
  | named {before after : Toml.Members} (split : members = before ++ (name, item) :: after)
    (first : ∀ m ∈ before, m.1 ≠ name)
  | respelled {n : Bytes} {before after : Toml.Members}
    (split : members = before ++ (n, item) :: after) (same : Text.isNamed name n = true)
    (none : ∀ m ∈ members, m.1 ≠ name) (first : ∀ m ∈ before, Text.isNamed name m.1 = false)

inductive Kind where
  | integer
  | string
  | boolean

def Kind.Admits : Kind → Toml.Item → Prop
  | integer, item => ∃ n, item = .value (.integer n)
  | string, item => ∃ s, item = .value (.string s)
  | boolean, item => ∃ b, item = .value (.boolean b)

def settings : List (Bytes × Kind) :=
  [ ("max_findings", .integer), ("workers", .integer), ("log_level", .string),
    ("log_format", .string), ("log_file", .string), ("state_dir", .string),
    ("history_enabled", .boolean), ("history_max_records", .integer) ]

/-- Whatever is named like a setting has its type. -/
def IsTyped (members : Toml.Members) : Prop :=
  ∀ s ∈ settings, ∀ m ∈ members, Text.isNamed s.1 m.1 = true → s.2.Admits m.2

/-! ## Places -/

/-- Where settings come from, as it is found. -/
inductive Place where
  | missing
  /-- A file that cannot be read or is no table. -/
  | broken (fault : Fault)
  | file (path : Bytes) (members : Toml.Members)
  | environment (assignments : List Bytes)
  | commandLine (overrides : Layer.Overrides)

def unsettled (path : Bytes) : Fault :=
  .user ("Invalid configuration in " ++ path ++ ".") (.plain "toml: not a configuration")

namespace Place

def ofPath (t : Tree) (path : Bytes) : Place :=
  match t.statAt path with
  | .error fault =>
    if fault.reason = .notFound then missing
    else broken (.user "Invalid configuration file." fault.toFault)
  | .ok _ =>
    match t.readAt path with
    | .error fault => broken (.user "Could not read configuration file." fault.toFault)
    | .ok text =>
      match Toml.read? text with
      | none => broken (unsettled path)
      | some members => file path members

/-- A place gives a value to a field. -/
def Sets : Place → (f : Field) → f.Value → Prop
  | missing, _, _ => False
  | broken _, _, _ => False
  | file _ ms, .maxFindings, n => HasSetting ms "max_findings" (.value (.integer n))
  | file _ ms, .workers, n => HasSetting ms "workers" (.value (.integer n)) ∧ 0 < n
  | file _ ms, .logLevel, level =>
    Spells (fun word => HasSetting ms "log_level" (.value (.string word))) level.name
  | file _ ms, .logFormat, format =>
    Spells (fun word => HasSetting ms "log_format" (.value (.string word))) format.name
  | file _ ms, .logFile, path => HasSetting ms "log_file" (.value (.string path))
  | file _ ms, .stateDir, path => HasSetting ms "state_dir" (.value (.string path)) ∧ path ≠ []
  | file _ ms, .historyEnabled, b => HasSetting ms "history_enabled" (.value (.boolean b))
  | file _ ms, .historyMaxRecords, n =>
    HasSetting ms "history_max_records" (.value (.integer n)) ∧ 0 ≤ n
  | environment e, .maxFindings, n => Counts (HasVariable e "WPCC_TRIAGE_MAX_FINDINGS") n
  | environment e, .workers, n => Counts (HasVariable e "WPCC_TRIAGE_WORKERS") n ∧ 0 < n
  | environment e, .logLevel, level => Spells (HasVariable e "WPCC_TRIAGE_LOG_LEVEL") level.name
  | environment e, .logFormat, format => Spells (HasVariable e "WPCC_TRIAGE_LOG_FORMAT") format.name
  | environment e, .logFile, path => HasVariable e "WPCC_TRIAGE_LOG_FILE" path
  | environment e, .stateDir, path => HasVariable e "WPCC_TRIAGE_STATE_DIR" path
  | environment e, .historyEnabled, b => Replies (HasVariable e "WPCC_TRIAGE_HISTORY_ENABLED") b
  | environment e, .historyMaxRecords, n =>
    Counts (HasVariable e "WPCC_TRIAGE_HISTORY_MAX_RECORDS") n
  | commandLine o, .maxFindings, n => o.maxFindings = some n
  | commandLine o, .workers, n => o.workers = some n ∧ 0 < n
  | commandLine o, .logLevel, level => Spells (o.logLevel = some ·) level.name
  | commandLine o, .logFormat, format => Spells (o.logFormat = some ·) format.name
  | commandLine o, .logFile, path => o.logFile = some path
  | commandLine o, .stateDir, path => o.stateDir = some path
  | commandLine o, .historyEnabled, b => o.historyEnabled = some b
  | commandLine _, .historyMaxRecords, _ => False

end Place

/-! ## Checks -/

/-- A check, as the faults that it finds. -/
abbrev Check := Fault → Prop

namespace Check

def negative (message : Bytes) (given : Int64 → Prop) : Check :=
  fun fault => (∃ n, given n ∧ n < 0) ∧ fault = .plain message

/-- A word that is not empty spells none of some names. -/
def unknown (message : Bytes) (names : List Bytes) (given : Bytes → Prop) : Check :=
  fun fault => (∃ name, Spells given name ∧ name ∉ names) ∧ fault = .plain message

/-- A numeral that is not empty is none, or is below zero. -/
def uncounted (name : Bytes) (given : Bytes → Prop) : Check :=
  fun fault =>
    (∃ numeral why, given numeral ∧ numeral ≠ [] ∧ Refuses numeral why ∧
      fault = .user (name ++ " must be a valid number.") (Layer.numeralFault numeral why)) ∨
    negative (name ++ " must be non-negative.") (Counts given) fault

/-- A word that is not empty is neither a yes nor a no. -/
def undecided (name : Bytes) (given : Bytes → Prop) : Check :=
  fun fault => ∃ word, given word ∧ word ≠ [] ∧
    Text.lower (Text.trim word) ∉ yesWords ++ noWords ∧
    fault = .user (name ++ " must be 1/true/yes/on or 0/false/no/off.")
      (.plain ("invalid boolean " ++ Text.quoted word))

end Check

def levelNames : List Bytes := ["debug", "info", "warn", "error"]

def formatNames : List Bytes := ["console", "json"]

namespace Place

open Check (negative unknown uncounted undecided)

/-- What a place is checked for, in this order. -/
def checks : Place → List Check
  | missing => []
  | broken fault => [(· = fault)]
  | file path ms =>
    [ fun fault => ¬ IsTyped ms ∧ fault = unsettled path,
      negative "Configuration max_findings must be non-negative."
        fun n => HasSetting ms "max_findings" (.value (.integer n)),
      unknown "Configuration log_level must be debug, info, warn or error." levelNames
        fun word => HasSetting ms "log_level" (.value (.string word)),
      unknown "Configuration log_format must be console or json." formatNames
        fun word => HasSetting ms "log_format" (.value (.string word)) ]
  | environment e =>
    [ uncounted "WPCC_TRIAGE_MAX_FINDINGS" (HasVariable e "WPCC_TRIAGE_MAX_FINDINGS"),
      uncounted "WPCC_TRIAGE_WORKERS" (HasVariable e "WPCC_TRIAGE_WORKERS"),
      unknown "WPCC_TRIAGE_LOG_LEVEL must be debug, info, warn or error." levelNames
        (HasVariable e "WPCC_TRIAGE_LOG_LEVEL"),
      unknown "WPCC_TRIAGE_LOG_FORMAT must be console or json." formatNames
        (HasVariable e "WPCC_TRIAGE_LOG_FORMAT"),
      undecided "WPCC_TRIAGE_HISTORY_ENABLED" (HasVariable e "WPCC_TRIAGE_HISTORY_ENABLED"),
      uncounted "WPCC_TRIAGE_HISTORY_MAX_RECORDS"
        (HasVariable e "WPCC_TRIAGE_HISTORY_MAX_RECORDS") ]
  | commandLine o =>
    [ negative "--max-findings must be non-negative." (o.maxFindings = some ·),
      unknown "Invalid log level; use debug, info, warn or error." levelNames
        (o.logLevel = some ·),
      unknown "Invalid log format; use console or json." formatNames (o.logFormat = some ·) ]

def InOrder (p : Place) : Prop := ∀ check ∈ p.checks, ∀ fault, ¬ check fault

end Place

/-- The first check that finds a fault finds this one. -/
def FirstFault : List Check → Fault → Prop
  | [], _ => False
  | check :: rest, fault => check fault ∨ (∀ f, ¬ check f) ∧ FirstFault rest fault

/-- A field takes its value from some places, the highest first: the first that
sets it decides, and if none does, `base`. -/
def Field.Takes (f : Field) (base : f.Value) : List Place → f.Value → Prop
  | [], v => v = base
  | p :: below, v => p.Sets f v ∨ (∀ w, ¬ p.Sets f w) ∧ f.Takes base below v

/-- The places of a configuration, the lowest first. -/
def Config.Sources.places (s : Config.Sources) (t : Tree) : List Place :=
  [ .ofPath t s.globalFile,
    if s.root.isEmpty then .missing else .ofPath t (Path.join [s.root, Config.projectFile]),
    .environment s.environment,
    .commandLine s.overrides ]

/-! ## Readers -/

namespace Layer

theorem value?_eq_some_iff {name value assignment : Bytes} :
    value? name assignment = some value ↔ Assigns assignment name value := by
  unfold value?
  constructor
  · intro h
    split at h
    · next key raw hcut =>
      obtain ⟨rfl, hkey⟩ := Bytes.cut?_eq_some_iff.mp hcut
      split at h
      · next hname =>
        rw [Bool.and_eq_true, beq_iff_eq, Bool.not_eq_true', List.isEmpty_eq_false_iff] at hname
        exact ⟨key, raw, rfl, hname.1, hkey, hname.2, Option.some.inj h⟩
      · cases h
    · cases h
  · rintro ⟨key, raw, rfl, hne, hkey, rfl, rfl⟩
    rw [Bytes.cut?_eq_some_iff.mpr ⟨rfl, hkey⟩]
    simp [hne]

theorem assigned?_eq_some_iff {name value : Bytes} {environment : List Bytes} :
    assigned? name environment = some value ↔ HasVariable environment name value := by
  rw [assigned?, List.findSome?_eq_some_iff]
  simp only [Option.eq_none_iff_forall_ne_some, ne_eq, value?_eq_some_iff]
  constructor
  · rintro ⟨after, assignment, before, hsplit, hassigns, hafter⟩
    rw [List.reverse_eq_iff] at hsplit
    refine ⟨before.reverse, assignment, after.reverse, ?_, hassigns, ?_⟩
    · rw [hsplit]
      simp
    · exact fun a ha => hafter a (List.mem_reverse.mp ha)
  · rintro ⟨before, assignment, after, rfl, hassigns, hafter⟩
    refine ⟨after.reverse, assignment, before.reverse, by simp, hassigns, ?_⟩
    exact fun a ha => hafter a (List.mem_reverse.mp ha)

theorem not_mem_noWords : ∀ word ∈ yesWords, word ∉ noWords := by decide

theorem answer?_eq_some_iff {word : Bytes} {b : Bool} :
    answer? word = some b ↔
      Text.lower (Text.trim word) ∈ if b then yesWords else noWords := by
  have hyes : ∀ w : Bytes,
      (w == "1" || w == "true" || w == "yes" || w == "on") = true ↔ w ∈ yesWords := by
    simp [yesWords, or_assoc]
  have hno : ∀ w : Bytes,
      (w == "0" || w == "false" || w == "no" || w == "off") = true ↔ w ∈ noWords := by
    simp [noWords, or_assoc]
  have hboth := not_mem_noWords (Text.lower (Text.trim word))
  simp only [answer?, hyes, hno]
  cases b <;> grind

theorem answer?_eq_none_iff {word : Bytes} :
    answer? word = none ↔ Text.lower (Text.trim word) ∉ yesWords ++ noWords := by
  rw [Option.eq_none_iff_forall_ne_some]
  simp only [ne_eq, answer?_eq_some_iff, Bool.forall_bool, List.mem_append, not_or]
  exact and_comm

theorem setting?_eq_some_iff {name : Bytes} {members : Toml.Members} {item : Toml.Item} :
    setting? name members = some item ↔ HasSetting members name item := by
  unfold setting?
  constructor
  · intro h
    split at h
    · next found hlookup =>
      cases h
      obtain ⟨before, after, hsplit, hfirst⟩ := List.lookup_eq_some_iff.mp hlookup
      exact .named hsplit fun m hm => (bne_iff_ne.mp (hfirst m hm)).symm
    · next hlookup =>
      rw [List.lookup_eq_none_iff] at hlookup
      obtain ⟨⟨n, found⟩, hfind, rfl⟩ := Option.map_eq_some_iff.mp h
      obtain ⟨hsame, before, after, hsplit, hfirst⟩ := List.find?_eq_some_iff_append.mp hfind
      refine .respelled hsplit hsame ?_ ?_
      · exact fun m hm => (bne_iff_ne.mp (hlookup m hm)).symm
      · exact fun m hm => by simpa using hfirst m hm
  · intro h
    cases h with
    | named hsplit hfirst =>
      have hlookup : members.lookup name = some item :=
        List.lookup_eq_some_iff.mpr ⟨_, _, hsplit, fun m hm => bne_iff_ne.mpr (hfirst m hm).symm⟩
      rw [hlookup]
    | @respelled n before after hsplit hsame hnone hfirst =>
      have hlookup : members.lookup name = none :=
        List.lookup_eq_none_iff.mpr fun m hm => bne_iff_ne.mpr (hnone m hm).symm
      have hfind : members.find? (fun m => Text.isNamed name m.1) = some (n, item) :=
        List.find?_eq_some_iff_append.mpr
          ⟨hsame, before, after, hsplit, fun m hm => by simpa using hfirst m hm⟩
      rw [hlookup]
      exact congrArg (Option.map (·.2)) hfind

end Layer

end ScanTriage
