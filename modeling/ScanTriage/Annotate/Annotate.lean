import ScanTriage.FileSystem.Path
import ScanTriage.FileSystem.Program
import ScanTriage.Annotate.Inject
import ScanTriage.Triage.Engine

/-!
# Annotating a report file

Triages the findings of a report file and writes the triage report back into
it. The file is replaced in one step, under a lock in the state directory,
and read again to see that it is what was to be written.
-/

namespace ScanTriage

namespace Annotate

/-- What becomes of an event: it may change a state and use files. -/
abbrev Listener (σ : Type) := Event → σ → FileProgram σ

def collect : Listener (List Event) := fun event events => pure (events ++ [event])

/-- Work on files that shows events and may fail. What was shown before a
failure stays shown. -/
abbrev Task (σ : Type) := ExceptT Fault (StateT σ FileProgram)

namespace Task

variable {σ α : Type}

def lift (p : FileProgram α) : Task σ α := ExceptT.lift (StateT.lift p)

/-- Runs a program whose refusal is told the user with a message of its own. -/
def orTell (message : Bytes) (p : FileProgram (Except FileFault α)) : Task σ α := do
  match ← lift p with
  | .ok a => pure a
  | .error fault => throw (.user message fault.toFault)

def emit (hear : Listener σ) : List Event → Task σ Unit
  | [] => pure ()
  | event :: events => do
    set (← lift (hear event (← get)))
    emit hear events

end Task

structure Options where
  engine? : Option Engine
  /-- Gives the annotated report back instead of writing it. -/
  toOutput : Bool := false
  /-- Holds the lock; if empty, a directory beside the report does. -/
  stateDir : Bytes := []
  /-- Whether what the engine shows is shown. -/
  showsEngine : Bool := true
  /-- Whether the run was called off before it started. -/
  cancelled : Bool := false
  /-- The directory that a relative path starts from. -/
  working : Bytes

structure Outcome where
  report : Report
  totalFindings : Int64
  /-- The absolute path of the report. -/
  path : Bytes
  /-- The annotated report, if it was not written. -/
  output? : Option Bytes
  deriving DecidableEq

def lockName : Bytes := "annotate.lock"

def defaultStateDir (path : Bytes) : Bytes := Path.join [Path.directory path, ".wpcc"]

variable {σ : Type}

/-- Takes the lock of a state directory, which is made if it is missing. -/
def acquire (stateDir : Bytes) : Task σ FileId := do
  let tell (cause : Fault) : Fault := .user "Could not lock report for writing." cause
  match ← Task.lift (.makeDirectories stateDir) with
  | .error fault => throw (tell (.labelled "annotate lock: create state dir" fault.toFault))
  | .ok _ =>
    let path := Path.join [stateDir, lockName]
    match ← Task.lift (.perform (.lock path)) with
    | .ok file => pure file
    | .error .busy => throw (.user "Another wpcc-triage run is annotating this report." .locked)
    | .error (.file fault) =>
      throw (tell (.labelled ("annotate lock: open " ++ path) fault.toFault))

def release (file : FileId) : Task σ Unit := Task.lift (.perform (.unlock file))

/-- Replaces a file by way of a temporary one beside it, which gets its mode. -/
def replaceFile (path : Bytes) (data : Bytes) : FileProgram (Except FileFault Unit) := do
  let mode ←
    match ← .perform (.stat path) with
    | .ok info => pure info.mode
    | .error _ => pure 0o644
  match ← .perform (.writeTemporary (Path.directory path) (Path.base path ++ ".") data) with
  | .error fault => pure (.error fault)
  | .ok temporary =>
    let outcome ←
      match ← .perform (.setMode temporary mode) with
      | .error fault => pure (.error fault)
      | .ok _ => .perform (.rename temporary path)
    match outcome with
    | .ok _ => pure (.ok ())
    | .error fault => do
      let _ ← .perform (.remove temporary)
      pure (.error fault)

def noFindings (path : Bytes) : LogEntry :=
  { level := .warn, message := "report has no findings array", fields := [("path", .text path)] }

def written (path : Bytes) (total : Int64) (report : Report) : LogEntry :=
  { level := .info
    message := "report annotated"
    fields :=
      [ ("path", .text path),
        ("run_id", .text report.runId),
        ("findings", .int total),
        ("reviewed", .int report.scope.reviewed) ] }

def triage (hear : Listener σ) (options : Options) (engine : Engine) (path data : Bytes) :
    Task σ (Report × Int64) := do
  if !Json.isValid data then
    throw (.user "Report is not valid JSON." (.plain (path ++ ": invalid JSON")))
  let findings? := Finding.listOfReport? data
  if findings?.isNone then Task.emit hear [.log (noFindings path)]
  match engine.run findings? with
  | .error stopped =>
    if options.showsEngine then Task.emit hear stopped.events
    throw .cancelled
  | .ok (report, events) =>
    if options.showsEngine then Task.emit hear events
    pure (report, Int64.ofNat (findings?.getD []).length)

/-- Reads, triages and annotates; the annotated text is written unless it is
to be given back. -/
def work (hear : Listener σ) (options : Options) (engine : Engine) (path : Bytes) :
    Task σ Outcome := do
  let data ← Task.orTell "Could not read report file." (.perform (.read path))
  let (report, total) ← triage hear options engine path data
  match inject data report with
  | .error why => throw (.user "Could not build annotated report." (injectFault why))
  | .ok out =>
    if options.toOutput then pure ⟨report, total, path, some out⟩
    else do
      Task.orTell "Could not write annotated report." (replaceFile path out)
      let after ← Task.orTell "Could not re-read annotated report." (.perform (.read path))
      match verify data after with
      | .error why =>
        throw (.user "Annotated report failed verification." (.integrity why.message))
      | .ok _ =>
        Task.emit hear [.log (written path total report)]
        pure ⟨report, total, path, none⟩

def annotateWith (hear : Listener σ) (options : Options) (path : Bytes) : Task σ Outcome := do
  match options.engine? with
  | none => throw (.plain "No triage engine configured.")
  | some engine =>
    if options.cancelled then throw .cancelled
    let path := Path.absolute options.working path
    if options.toOutput then work hear options engine path
    else
      let stateDir := if options.stateDir.isEmpty then defaultStateDir path else options.stateDir
      let file ← acquire stateDir
      let outcome ← ExceptT.lift (work hear options engine path).run
      release file
      match outcome with
      | .ok outcome => pure outcome
      | .error fault => throw fault

def annotate (options : Options) (path : Bytes) : Task (List Event) Outcome :=
  annotateWith collect options path

end Annotate

end ScanTriage
