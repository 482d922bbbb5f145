import ScanTriage.Timestamp
import ScanTriage.FileSystem.Program

/-!
# Log files

Where log lines are kept. The file is opened when the first line is written
and stays open: if another file takes its place, the lines still go to the old
one. A file that would grow too large is moved out of the way, and so is
whatever else stands at its path and cannot be written to. A line that cannot
be written is lost without a word.
-/

namespace ScanTriage

structure LogFile where
  path : Bytes
  /-- The present moment in seconds since 1970. -/
  now : Int
  /-- The file holds at most so many bytes. -/
  maxSize : Nat := 10 * 1024 * 1024

namespace LogFile

structure Opened where
  file : FileId
  /-- Whether lines go to the end of the file; else each goes right behind the
  one before it. -/
  atEnd : Bool
  size : Nat
  deriving DecidableEq

/-- What stands at the path is moved here: its name with the moment in front
of the extension. -/
def backupPath (log : LogFile) : Bytes :=
  let name := Path.base log.path
  let extension := Path.extension name
  let stem := name.take (name.length - extension.length)
  Path.join [Path.directory log.path, stem ++ "-" ++ Timestamp.inFileName log.now ++ extension]

def create (log : LogFile) (mode : Nat) : FileProgram (Option Opened) := do
  match ← .perform (.create log.path mode) with
  | .ok file => pure (some ⟨file, false, 0⟩)
  | .error _ => pure none

/-- Opens an empty file. What stands at the path is moved out of the way, and
the new file gets its mode. -/
def openNew (log : LogFile) : FileProgram (Option Opened) := do
  match ← .makeDirectories (Path.directory log.path) with
  | .error _ => pure none
  | .ok _ =>
    match ← .perform (.stat log.path) with
    | .error _ => log.create 0o600
    | .ok info =>
      match ← .perform (.rename log.path log.backupPath) with
      | .error _ => pure none
      | .ok _ => log.create info.mode

def openFor (log : LogFile) (length : Nat) : FileProgram (Option Opened) := do
  match ← .perform (.stat log.path) with
  | .error fault => if fault.reason == .notFound then log.openNew else pure none
  | .ok info =>
    if log.maxSize ≤ info.size + length then log.openNew
    else
      match ← .perform (.openFile log.path) with
      | .ok file => pure (some ⟨file, true, info.size⟩)
      | .error _ => log.openNew

/-- Writes a line to the file that is open, or opens it first, and answers
which file is open then. -/
def write (log : LogFile) (opened? : Option Opened) (line : Bytes) :
    FileProgram (Option Opened) := do
  if log.maxSize < line.length then pure opened?
  else
    let ready? ←
      match opened? with
      | none => log.openFor line.length
      | some opened =>
        if log.maxSize < opened.size + line.length then log.openNew else pure (some opened)
    match ready? with
    | none => pure none
    | some opened =>
      let _ ← .perform (.writeTo opened.file (if opened.atEnd then none else some opened.size) line)
      pure (some { opened with size := opened.size + line.length })

end LogFile

end ScanTriage
