import Std.Time.DateTime
import ScanTriage.Cli.Run

/-!
# The program

Carries out a `FileProgram` on the files of the machine, and runs the command
line it was called with.
-/

namespace ScanTriage

namespace Host

/-- The files that are open, the latest first. -/
abbrev Handles := List (FileId × IO.FS.Handle)

abbrev Work := StateT Handles IO

def name (path : Bytes) : String := (String.fromUTF8? ⟨path.toArray⟩).getD ""

def reasonOf (action : Bytes) : IO.Error → FileReason
  | .noFileOrDirectory .. => .notFound
  | .noSuchThing .. => .notFound
  | .alreadyExists .. => .alreadyExists
  | .inappropriateType .. => if action == "read" then .isDirectory else .notDirectory
  | .resourceBusy .. => .notEmpty
  | .unsatisfiedConstraints .. => .notEmpty
  | error => .other (toString error)

def attempt {α : Type} (action path : Bytes) (work : IO α) : Work (Except FileFault α) := do
  match ← work.toBaseIO with
  | .ok a => pure (.ok a)
  | .error error => pure (.error ⟨action, path, reasonOf action error⟩)

/-- The content of a file. A file that cannot even be opened is refused in
other words than one that cannot be read. -/
def contentOf (path : Bytes) (work : IO Bytes) : Work (Except FileFault Bytes) := do
  match ← attempt "read" path work with
  | .ok data => pure (.ok data)
  | .error fault =>
    if fault.reason == .isDirectory then pure (.error fault)
    else pure (.error { fault with action := "open" })

/-- What is known of a path. The mode of a file cannot be asked for, so the
usual one is answered. -/
def stat (path : Bytes) : IO FileInfo := do
  let info ← ((← IO.currentDir) / name path).metadata
  if info.type == .dir then pure ⟨true, 0o755, 0⟩ else pure ⟨false, 0o644, info.byteSize.toNat⟩

def read (path : Bytes) : IO Bytes := do
  pure (← IO.FS.readBinFile (name path)).data.toList

def list (path : Bytes) : IO (List DirectoryEntry) := do
  let found ← ((← IO.currentDir) / name path).readDir
  let entries ← found.toList.mapM fun entry => do
    let info ← entry.path.metadata
    pure (⟨entry.fileName, info.type == .dir⟩ : DirectoryEntry)
  pure (entries.mergeSort fun a b => Bytes.le a.name b.name)

def rights (bits : Nat) : IO.AccessRight :=
  { read := bits / 4 % 2 == 1, write := bits / 2 % 2 == 1, execution := bits % 2 == 1 }

def setMode (path : Bytes) (mode : Nat) : IO Unit :=
  IO.setAccessRights (name path) ⟨rights (mode / 64), rights (mode / 8), rights mode⟩

def append (path : Bytes) (mode : Nat) (data : Bytes) : IO Unit := do
  let isNew := !(← ((← IO.currentDir) / name path).pathExists)
  let handle ← IO.FS.Handle.mk (name path) .append
  if isNew then setMode path mode
  handle.write ⟨data.toArray⟩

def write (path : Bytes) (data : Bytes) : IO Unit :=
  IO.FS.writeBinFile (name path) ⟨data.toArray⟩

def writeTemporary (directory front data : Bytes) : IO Bytes := do
  let serial ← IO.rand 0 999999999
  let path := Path.join [directory, front ++ Bytes.decimal serial ++ ".tmp"]
  write path data
  setMode path 0o600
  pure path

def remove (path : Bytes) : IO Unit := do
  if (← stat path).isDirectory then IO.FS.removeDir (name path) else IO.FS.removeFile (name path)

/-- Opens the file of a lock, which is made for its owner alone if missing. -/
def openLock (path : Bytes) : IO IO.FS.Handle := do
  append path 0o600 []
  IO.FS.Handle.mk (name path) .append

def keep (handle : IO.FS.Handle) : Work FileId := do
  let file := (← get).length
  modify ((file, handle) :: ·)
  pure file

def keepOpen (path : Bytes) (work : IO IO.FS.Handle) : Work (Except FileFault FileId) := do
  match ← attempt "open" path work with
  | .ok handle => pure (.ok (← keep handle))
  | .error fault => pure (.error fault)

def lock (path : Bytes) : Work (Except LockFault FileId) := do
  match ← attempt "open" path (openLock path) with
  | .error fault => pure (.error (.file fault))
  | .ok handle => if ← handle.tryLock then pure (.ok (← keep handle)) else pure (.error .busy)

def unlock (file : FileId) : Work Unit := do
  match (← get).lookup file with
  | some handle => handle.unlock
  | none => pure ()

def openFile (path : Bytes) : IO IO.FS.Handle := do
  let _ ← stat path
  IO.FS.Handle.mk (name path) .append

def create (path : Bytes) (mode : Nat) : IO IO.FS.Handle := do
  let isNew := !(← ((← IO.currentDir) / name path).pathExists)
  let handle ← IO.FS.Handle.mk (name path) .write
  if isNew then setMode path (mode &&& 0o755)
  pure handle

/-- Writes behind what was written to an open file before. What cannot be
written is lost. -/
def writeTo (file : FileId) (data : Bytes) : Work Unit := do
  match (← get).lookup file with
  | some handle =>
    let work : IO Unit := do
      handle.write ⟨data.toArray⟩
      handle.flush
    let _ ← work.toBaseIO
    pure ()
  | none => pure ()

def perform : (c : FileCommand) → Work c.Answer
  | .stat path => attempt "stat" path (stat path)
  | .read path => contentOf path (read path)
  | .list path => attempt "open" path (list path)
  | .makeDirectory path => attempt "mkdir" path (IO.FS.createDir (name path))
  | .append path mode data => attempt "open" path (append path mode data)
  | .write path data => attempt "open" path (write path data)
  | .writeTemporary directory front data => attempt "open" directory (writeTemporary directory front data)
  | .setMode path mode => attempt "chmod" path (setMode path mode)
  | .rename source target =>
    attempt "rename" (source ++ " " ++ target) (IO.FS.rename (name source) (name target))
  | .remove path => attempt "remove" path (remove path)
  | .lock path => lock path
  | .unlock file => unlock file
  | .openFile path => keepOpen path (openFile path)
  | .create path mode => keepOpen path (create path mode)
  | .writeTo file _ data => writeTo file data

def run {α : Type} : FileProgram α → Work α
  | .done a => pure a
  | .call c next => do
    let answer ← perform c
    run (next answer)

def watched : List String :=
  [ "HOME", "XDG_CONFIG_HOME", "WPCC_TRIAGE_MAX_FINDINGS", "WPCC_TRIAGE_WORKERS",
    "WPCC_TRIAGE_LOG_LEVEL", "WPCC_TRIAGE_LOG_FORMAT", "WPCC_TRIAGE_LOG_FILE",
    "WPCC_TRIAGE_STATE_DIR", "WPCC_TRIAGE_HISTORY_ENABLED", "WPCC_TRIAGE_HISTORY_MAX_RECORDS" ]

def environment : IO (List Bytes) :=
  watched.filterMapM fun key => do
    match ← IO.getEnv key with
    | some value => pure (some (Bytes.ofString (key ++ "=" ++ value)))
    | none => pure none

partial def readAll (stream : IO.FS.Stream) (read : ByteArray) : IO ByteArray := do
  let chunk ← stream.read 65536
  if chunk.isEmpty then pure read else readAll stream (read ++ chunk)

def input (arguments : List Bytes) : IO Bytes := do
  match Cli.Request.ofArguments arguments with
  | .ok request =>
    if request.readsInput then pure (← readAll (← IO.getStdin) ByteArray.empty).data.toList
    else pure []
  | .error _ => pure []

end Host

end ScanTriage

open ScanTriage in
def main (arguments : List String) : IO UInt32 := do
  let arguments := arguments.map Bytes.ofString
  let call : Cli.Call :=
    { arguments := arguments
      input := ← Host.input arguments
      environment := ← Host.environment
      working := (← IO.currentDir).toString
      now := (← Std.Time.Timestamp.now).toSecondsSinceUnixEpoch.val }
  let (outcome, _) ← (Host.run (Cli.run call)).run []
  (← IO.getStdout).write ⟨outcome.printed.output.toArray⟩
  (← IO.getStderr).write ⟨outcome.printed.errors.toArray⟩
  match outcome.ending with
  | .exited code => pure code.toUInt32
  | .aborted => pure 2
