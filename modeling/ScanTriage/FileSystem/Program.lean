import ScanTriage.Fault
import ScanTriage.FileSystem.Path

/-!
# Programs on files

Work on files is described as a `FileProgram`: a sequence of commands, each of
which may depend on the answers before it. A command is one step that the
operating system carries out at once, so several programs can be taken to run
in any interleaving of their commands.

A file is found by its path. One that is locked or kept open is told by a
`FileId` instead, which stays with it when it is moved or another file takes
its place.
-/

namespace ScanTriage

inductive FileReason where
  | notFound
  | notDirectory
  | isDirectory
  | alreadyExists
  | notEmpty
  | nameTooLong
  | busy
  | invalid
  | other (text : Bytes)
  deriving DecidableEq

def FileReason.text : FileReason → Bytes
  | notFound => "no such file or directory"
  | notDirectory => "not a directory"
  | isDirectory => "is a directory"
  | alreadyExists => "file exists"
  | notEmpty => "directory not empty"
  | nameTooLong => "file name too long"
  | busy => "device or resource busy"
  | invalid => "invalid argument"
  | other text => text

/-- A refused command: what was tried, on what, and why it was refused. -/
structure FileFault where
  action : Bytes
  path : Bytes
  reason : FileReason
  deriving DecidableEq

def FileFault.message (f : FileFault) : Bytes :=
  f.action ++ " " ++ f.path ++ ": " ++ f.reason.text

def FileFault.toFault (f : FileFault) : Fault := .plain f.message

inductive LockFault where
  | busy
  | file (fault : FileFault)
  deriving DecidableEq

structure FileInfo where
  isDirectory : Bool
  mode : Nat
  size : Nat
  deriving DecidableEq

abbrev FileId := Nat

structure DirectoryEntry where
  name : Bytes
  isDirectory : Bool
  deriving DecidableEq

inductive FileCommand where
  | stat (path : Bytes)
  | read (path : Bytes)
  /-- The entries of a directory in ascending order of their names. -/
  | list (path : Bytes)
  | makeDirectory (path : Bytes)
  /-- Adds to the end of a file, which is made with `mode` if it is missing. -/
  | append (path : Bytes) (mode : Nat) (data : Bytes)
  /-- Replaces the content of a file, which is made if it is missing. -/
  | write (path : Bytes) (data : Bytes)
  /-- Writes a file of its own to a directory, named `front`, something
  unused, and `.tmp`, and answers its path. -/
  | writeTemporary (directory front : Bytes) (data : Bytes)
  | setMode (path : Bytes) (mode : Nat)
  /-- Puts a file in the place of another. -/
  | rename (source target : Bytes)
  | remove (path : Bytes)
  /-- Takes the lock on a file, which is made if it is missing, without
  waiting for it, and answers which file is locked. -/
  | lock (path : Bytes)
  | unlock (file : FileId)
  /-- Opens a file that is there. -/
  | openFile (path : Bytes)
  /-- Opens a file without its content; it is made with `mode` if it is
  missing. -/
  | create (path : Bytes) (mode : Nat)
  /-- Writes to an open file, at a position or at the end. What is written to a
  file without a path is seen by nobody. -/
  | writeTo (file : FileId) (position? : Option Nat) (data : Bytes)

def FileCommand.Answer : FileCommand → Type
  | stat _ => Except FileFault FileInfo
  | read _ => Except FileFault Bytes
  | list _ => Except FileFault (List DirectoryEntry)
  | makeDirectory _ => Except FileFault Unit
  | append _ _ _ => Except FileFault Unit
  | write _ _ => Except FileFault Unit
  | writeTemporary _ _ _ => Except FileFault Bytes
  | setMode _ _ => Except FileFault Unit
  | rename _ _ => Except FileFault Unit
  | remove _ => Except FileFault Unit
  | lock _ => Except LockFault FileId
  | unlock _ => Unit
  | openFile _ => Except FileFault FileId
  | create _ _ => Except FileFault FileId
  | writeTo _ _ _ => Unit

inductive FileProgram (α : Type) where
  | done (value : α)
  | call (command : FileCommand) (next : command.Answer → FileProgram α)

namespace FileProgram

def bind {α β : Type} : FileProgram α → (α → FileProgram β) → FileProgram β
  | done a, k => k a
  | call c next, k => call c fun answer => (next answer).bind k

instance : Monad FileProgram where
  pure := done
  bind := bind

def perform (c : FileCommand) : FileProgram c.Answer := call c done

def isDirectory (path : Bytes) : FileProgram Bool := do
  match ← perform (.stat path) with
  | .ok info => done info.isDirectory
  | .error _ => done false

/-- Makes a directory and those above it that are missing. A directory that
is there already is fine, also under another name such as `a/.`. -/
def makeDirectoriesWith : (fuel : Nat) → Bytes → FileProgram (Except FileFault Unit)
  | 0, _ => done (.ok ())
  | fuel + 1, path => do
    match ← perform (.stat path) with
    | .ok info =>
      done (if info.isDirectory then .ok () else .error ⟨"mkdir", path, .notDirectory⟩)
    | .error _ =>
      let above := Path.above path
      match ← if above.isEmpty then done (.ok ()) else makeDirectoriesWith fuel above with
      | .error fault => done (.error fault)
      | .ok _ =>
        match ← perform (.makeDirectory path) with
        | .ok _ => done (.ok ())
        | .error fault => done (if ← isDirectory path then .ok () else .error fault)

def makeDirectories (path : Bytes) : FileProgram (Except FileFault Unit) :=
  makeDirectoriesWith (path.length + 1) path

end FileProgram

abbrev FileTask := ExceptT Fault FileProgram

namespace FileTask

/-- Runs a program whose refusal is passed on as a fault. -/
def orFault {ε α : Type} (toFault : ε → Fault) (p : FileProgram (Except ε α)) : FileTask α :=
  ExceptT.mk do
    match ← p with
    | .ok a => pure (.ok a)
    | .error e => pure (.error (toFault e))

/-- Runs a program whose refusal is told the user with a message of its own. -/
def orTell {α : Type} (message : Bytes) (p : FileProgram (Except FileFault α)) : FileTask α :=
  orFault (fun f => .user message f.toFault) p

end FileTask

end ScanTriage
