import ScanTriage.Version
import ScanTriage.LogFile
import ScanTriage.Cli.Environment
import ScanTriage.Cli.Request
import ScanTriage.Cli.Explanation
import ScanTriage.Cli.Summary
import ScanTriage.History.Store

/-!
# Running a command line

`Cli.run` does what a command line asks for and answers what it printed and
how it ended.
-/

namespace ScanTriage

namespace Cli

structure Printed where
  output : Bytes := []
  errors : Bytes := []
  deriving DecidableEq

structure Progress where
  printed : Printed := {}
  /-- The log file, once it is open. -/
  log? : Option LogFile.Opened := none

namespace Progress

def print (p : Progress) (text : Bytes) : Progress :=
  { p with printed := { p.printed with output := p.printed.output ++ text } }

def printError (p : Progress) (text : Bytes) : Progress :=
  { p with printed := { p.printed with errors := p.printed.errors ++ text } }

end Progress

/-- Work that prints and may fail. What was printed before a failure stays
printed. -/
abbrev Task := Annotate.Task Progress

namespace Task

def give {α : Type} : Except Fault α → Task α
  | .ok a => pure a
  | .error fault => throw fault

def files {α : Type} (t : FileTask α) : Task α := do give (← Annotate.Task.lift t.run)

def print (text : Bytes) : Task Unit := modify (·.print text)

def printError (text : Bytes) : Task Unit := modify (·.printError text)

end Task

structure Call where
  arguments : List Bytes
  /-- The standard input. -/
  input : Bytes := []
  /-- The assignments of the environment. -/
  environment : List Bytes := []
  /-- The working directory in full. -/
  working : Bytes
  /-- The present moment in seconds since 1970. -/
  now : Int

/-! ## Configuration and logging -/

def rootOf (call : Call) (site : Site) : Bytes :=
  if site.root.isEmpty then call.working else site.root

def configure (call : Call) (site : Site) (overrides : Layer.Overrides) : Task Config := do
  let environment := Environment.settle call.environment
  let globalFile ←
    if site.globalFile.isEmpty then Task.give (Config.defaultGlobalFile environment)
    else pure site.globalFile
  Task.files (Config.load
    { root := rootOf call site
      globalFile := globalFile
      environment := environment
      overrides := overrides })

/-- The logger of a configuration and its file, with the moment that entries
show. -/
structure Journal where
  logger : Logger
  /-- None if the path is empty. -/
  file : LogFile
  time : Bytes

namespace Journal

/-- The journal of a configuration, unless its level or its format is none that
a logger takes. -/
def of (call : Call) (c : Config) : Except Fault Journal :=
  match Logger.ofSettings c.logLevel.name c.logFormat.name programName with
  | .ok logger =>
    .ok
      { logger := logger
        file := { path := c.logFile, now := call.now }
        time := Timestamp.renderMillis call.now }
  | .error fault => .error (.user "Invalid logging configuration." (.plain fault.message))

def note (j : Journal) (entry : LogEntry) (p : Progress) : FileProgram Progress := do
  let p := p.printError (j.logger.console j.time entry)
  let line := j.logger.file j.time entry
  if j.file.path.isEmpty || line.isEmpty then pure p
  else
    let log? ← j.file.write p.log? line
    pure { p with log? := log? }

/-- Shows events; trace output only if it is asked for. -/
def hear (j : Journal) (traced : Bool) : Annotate.Listener Progress
  | .trace step, p => pure (if traced then p.printError step.render else p)
  | .log entry, p => j.note entry p

def log (j : Journal) (entry : LogEntry) : Task Unit := do
  set (← Annotate.Task.lift (j.note entry (← get)))

end Journal

/-! ## Commands -/

def historyWarning (message : Bytes) (fault : Fault) : LogEntry :=
  { level := .warn, message := message, fields := [("error", .text fault.message)] }

/-- Logs a failure of the history as a warning and goes on with `other`. -/
def orWarn {α : Type} (j : Journal) (message : Bytes) (other : α) (task : FileTask α) : Task α := do
  match ← Annotate.Task.lift task.run with
  | .ok a => pure a
  | .error fault =>
    if fault.root == .aborted then throw fault
    else
      j.log (historyWarning message fault)
      pure other

/-- Adds a run to the history and compares it with the one before it. -/
def remember (j : Journal) (c : Config) (stateDir : Bytes) (o : Annotate.Outcome) :
    Task (Option HistoryRecord.Delta) := do
  let record := HistoryRecord.ofReport o.path o.totalFindings o.report ({} : Version).render
  let previous? ← orWarn j "could not read triage history" none (History.previous stateDir o.path)
  orWarn j "could not record triage history" ()
    (History.append stateDir record c.historyMaxRecords)
  pure (previous?.map record.since)

def annotate (call : Call) (r : AnnotateRequest) : Task Unit := do
  let c ← configure call r.site r.overrides
  let j ← Task.give (Journal.of call c)
  let stateDir := c.effectiveStateDir (rootOf call r.site)
  let options : Annotate.Options :=
    { engine? := some { maxFindings := c.maxFindings, workers := c.workers, now := call.now }
      toOutput := r.toOutput
      stateDir := stateDir
      working := call.working }
  let outcome ← Annotate.annotateWith (j.hear r.traced) options r.path
  match outcome.output? with
  | some text => Task.print text
  | none =>
    let delta? ← if c.historyEnabled then remember j c stateDir outcome else pure none
    Task.print (breakdown outcome delta?)

def explain (call : Call) (r : ExplainRequest) : Task Unit := do
  let text ←
    match r.source? with
    | none => pure call.input
    | some path => Task.files (.orTell "Could not read input file." (.perform (.read path)))
  match ExplainInput.ofText? text with
  | none => throw (.plain "Input is not valid JSON.")
  | some input =>
    if r.traced then Task.printError input.trace
    Task.print (if r.asJson then input.renderJson else input.renderYaml)

def stats (call : Call) (r : StatsRequest) : Task Unit := do
  let c ← configure call r.site {}
  let records ← Task.files (History.records (c.effectiveStateDir (rootOf call r.site)))
  let q := Quality.ofRecords records
  Task.print (if r.asJson then q.toJson.writeIndented true 0 ++ [Bytes.newline]
    else statistics r.top q)

def usage : Option Command → Bytes
  | none => "Usage:\n  " ++ programName ++ " [command]\n"
  | some c =>
    let arguments : Bytes :=
      match c with
      | .annotate => " <report.json> [flags]"
      | .explain => " [finding.json|-] [flags]"
      | .help => " [command] [flags]"
      | _ => " [flags]"
    "Usage:\n  " ++ c.path ++ arguments ++ "\n"

def perform (call : Call) : Request → Task Unit
  | .version => Task.print (programName ++ " version " ++ ({} : Version).render ++ "\n")
  | .help topic? => Task.print (usage topic?)
  | .annotate r => annotate call r
  | .explain r => explain call r
  | .rules => Task.print ruleTable.render
  | .stats r => stats call r

/-! ## Outcome -/

inductive Ending where
  | exited (code : UInt8)
  /-- The program stopped in the middle without an answer. -/
  | aborted
  deriving DecidableEq

structure Outcome where
  printed : Printed
  ending : Ending
  deriving DecidableEq

/-- What is printed about a fault: its message and, if there are any, details. -/
def report (fault : Fault) : Bytes :=
  fault.message ++ "\n" ++
    match fault.details? with
    | some cause => "Details: " ++ cause.message ++ "\n"
    | none => []

def run (call : Call) : FileProgram Outcome :=
  match Request.ofArguments call.arguments with
  | .error fault => pure ⟨{ errors := fault.message ++ "\n" }, .exited 1⟩
  | .ok request => do
    let (result, progress) ← (perform call request).run.run {}
    match result with
    | .ok _ => pure ⟨progress.printed, .exited 0⟩
    | .error fault =>
      if fault.root == .aborted then pure ⟨progress.printed, .aborted⟩
      else pure ⟨(progress.printError (report fault)).printed, .exited 1⟩

end Cli

end ScanTriage
