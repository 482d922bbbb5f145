import ScanTriage.Text.Case
import ScanTriage.Text.Quoted

/-!
# Logging

Log entries, the level below which they are dropped, and their two written
forms: tab-separated lines for a console and JSON lines. A log file always
gets JSON.
-/

namespace ScanTriage

inductive LogLevel where
  | debug
  | info
  | warn
  | error
  | dpanic
  | panic
  | fatal
  deriving DecidableEq

namespace LogLevel

def rank : LogLevel → Nat
  | debug => 0
  | info => 1
  | warn => 2
  | error => 3
  | dpanic => 4
  | panic => 5
  | fatal => 6

def name : LogLevel → Bytes
  | debug => "debug"
  | info => "info"
  | warn => "warn"
  | error => "error"
  | dpanic => "dpanic"
  | panic => "panic"
  | fatal => "fatal"

def title : LogLevel → Bytes
  | debug => "DEBUG"
  | info => "INFO"
  | warn => "WARN"
  | error => "ERROR"
  | dpanic => "DPANIC"
  | panic => "PANIC"
  | fatal => "FATAL"

def all : List LogLevel := [debug, info, warn, error, dpanic, panic, fatal]

def ofName? (text : Bytes) : Option LogLevel := all.find? (·.name == text)

def passes (threshold level : LogLevel) : Bool := threshold.rank ≤ level.rank

end LogLevel

inductive LogValue where
  | text (value : Bytes)
  | int (value : Int64)
  | bool (value : Bool)
  deriving DecidableEq

structure LogEntry where
  level : LogLevel
  message : Bytes
  fields : List (Bytes × LogValue)
  deriving DecidableEq

inductive LogFormat where
  | console
  | json
  deriving DecidableEq

structure Logger where
  threshold : LogLevel
  format : LogFormat
  name : Bytes

inductive LogFault where
  | level (given : Bytes)
  | format (given : Bytes)
  deriving DecidableEq

def LogFault.message : LogFault → Bytes
  | level given =>
    "logging: invalid level " ++ Text.quoted given ++ ": unrecognized level: " ++
      Text.quoted (Text.lower given)
  | format given =>
    "logging: invalid format " ++ Text.quoted given ++ " (want console or json)"

namespace LogValue

def escape : Rune → Bytes
  | .stray _ => "\\ufffd"
  | .char code =>
    if code == 0x22 then "\\\""
    else if code == 0x5C then "\\\\"
    else if code == 0x0A then "\\n"
    else if code == 0x0D then "\\r"
    else if code == 0x09 then "\\t"
    else if code < 0x20 then "\\u" ++ Bytes.hex 4 code
    else Utf8.encode code

def quoted (s : Bytes) : Bytes :=
  Bytes.quote :: (Utf8.decode s).flatMap escape ++ [Bytes.quote]

def render : LogValue → Bytes
  | text value => quoted value
  | int value => Bytes.decimalInt64 value
  | bool true => "true"
  | bool false => "false"

end LogValue

namespace Logger

/-- A logger from its settings. An empty level means warnings and an empty
format the console. -/
def ofSettings (level format name : Bytes) : Except LogFault Logger := do
  let threshold ←
    if level.isEmpty then .ok .warn
    else
      match LogLevel.ofName? (Text.lower level) with
      | some found => .ok found
      | none => .error (.level level)
  let form := Text.lower format
  if form.isEmpty || form == "console" then .ok ⟨threshold, .console, name⟩
  else if form == "json" then .ok ⟨threshold, .json, name⟩
  else .error (.format format)

def writes (logger : Logger) (level : LogLevel) : Bool := logger.threshold.passes level

def consoleLine (logger : Logger) (time : Bytes) (entry : LogEntry) : Bytes :=
  let parts : List Bytes :=
    [time, entry.level.title] ++ (if logger.name.isEmpty then [] else [logger.name]) ++
      [entry.message] ++
      (if entry.fields.isEmpty then []
        else
          [Bytes.openBrace ::
            Bytes.join ", " (entry.fields.map fun (name, value) =>
              LogValue.quoted name ++ ": " ++ value.render) ++ [Bytes.closeBrace]])
  Bytes.join "\t" parts ++ "\n"

def jsonLine (logger : Logger) (time : Bytes) (entry : LogEntry) : Bytes :=
  let head : List (Option (Bytes × LogValue)) :=
    [ some ("level", .text entry.level.title),
      some ("ts", .text time),
      if logger.name.isEmpty then none else some ("logger", .text logger.name),
      some ("msg", .text entry.message) ]
  let fields := head.filterMap id ++ entry.fields
  Bytes.openBrace ::
    Bytes.join "," (fields.map fun (name, value) => LogValue.quoted name ++ ":" ++ value.render) ++
    [Bytes.closeBrace, Bytes.newline]

def console (logger : Logger) (time : Bytes) (entry : LogEntry) : Bytes :=
  if logger.writes entry.level then
    match logger.format with
    | .console => logger.consoleLine time entry
    | .json => logger.jsonLine time entry
  else []

def file (logger : Logger) (time : Bytes) (entry : LogEntry) : Bytes :=
  if logger.writes entry.level then logger.jsonLine time entry else []

end Logger

end ScanTriage
