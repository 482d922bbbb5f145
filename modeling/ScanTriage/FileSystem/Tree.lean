import ScanTriage.FileSystem.Path
import ScanTriage.FileSystem.Program

/-!
# A tree of files

A file system as a value: the nodes by their paths, each path as its
components from the root. `Tree.perform` carries out one command and
`Tree.run` a whole program.

A file keeps its identity when it is written or moved. A new file gets one
that no file had before, so locks and open files cannot be mistaken.
-/

namespace ScanTriage

inductive Node where
  | file (id : FileId) (data : Bytes) (mode : Nat)
  | directory (mode : Nat)
  deriving DecidableEq

def Node.isDirectory : Node → Bool
  | file .. => false
  | directory _ => true

/-- The components of a path from the root. -/
abbrev NodePath := List Bytes

structure Tree where
  nodes : List (NodePath × Node) := []
  /-- How many files were ever made. -/
  serial : Nat := 0
  /-- The files that are locked. -/
  locks : List FileId := []
  /-- The directory that relative paths start from. -/
  working : NodePath := []

namespace Tree

/-- A path text must be shorter than this. -/
def maxPath : Nat := 4096

/-- A component is at most so long. -/
def maxName : Nat := 255

/-- The root is always there. -/
def find? (t : Tree) (path : NodePath) : Option Node :=
  if path.isEmpty then some (.directory 0o755) else t.nodes.lookup path

def insert (t : Tree) (path : NodePath) (node : Node) : Tree :=
  { t with nodes := (path, node) :: t.nodes.filter (·.1 != path) }

def erase (t : Tree) (path : NodePath) : Tree :=
  { t with nodes := t.nodes.filter (·.1 != path) }

def addFile (t : Tree) (path : NodePath) (data : Bytes) (mode : Nat) : FileId × Tree :=
  (t.serial, { t.insert path (.file t.serial data mode) with serial := t.serial + 1 })

/-- Moves a node with everything below it. What was at the goal is gone. -/
def move (t : Tree) (source goal : NodePath) : Tree :=
  { t with
    nodes := (t.nodes.filter fun (path, _) => path == source || path != goal).map fun (path, node) =>
      (if source.isPrefixOf path then goal ++ path.drop source.length else path, node) }

/-! ## Paths -/

/-- Follows components from a place. Every place passed must be a directory. -/
def walk (t : Tree) : NodePath → List Bytes → Except FileReason NodePath
  | place, [] => .ok place
  | place, part :: parts =>
    match t.find? place with
    | none => .error .notFound
    | some (.file ..) => .error .notDirectory
    | some (.directory _) =>
      if part == "." then walk t place parts
      else if part == ".." then walk t place.dropLast parts
      else if maxName < part.length then .error .nameTooLong
      else walk t (place ++ [part]) parts

/-- The components of a path text. A slash at the end asks for a directory. -/
def components (path : Bytes) : List Bytes :=
  let parts := (Bytes.split Bytes.slash path).filter fun p => !p.isEmpty
  if path.getLast? == some Bytes.slash then parts ++ [("." : Bytes)] else parts

/-- The place that a path text names, whether or not something is there. -/
def resolve (t : Tree) (path : Bytes) : Except FileReason NodePath :=
  if path.contains 0 then .error .invalid
  else if path.isEmpty then .error .notFound
  else if maxPath ≤ path.length then .error .nameTooLong
  else t.walk (if Path.isAbsolute path then [] else t.working) (components path)

def lookup (t : Tree) (path : Bytes) : Except FileReason (NodePath × Node) := do
  let place ← t.resolve path
  match t.find? place with
  | some node => .ok (place, node)
  | none => .error .notFound

/-- Names right below a directory, in ascending order. -/
def entries (t : Tree) (place : NodePath) : List DirectoryEntry :=
  let below := t.nodes.filterMap fun (path, node) =>
    if path.dropLast == place && !path.isEmpty then some ⟨path.getLastD [], node.isDirectory⟩
    else none
  below.mergeSort fun (a b : DirectoryEntry) => Bytes.le a.name b.name

/-! ## Commands -/

/-- A refusal in the words of the command. -/
def refuse {α : Type} (action path : Bytes) (reason : FileReason) : Except FileFault α :=
  .error ⟨action, path, reason⟩

def statAt (t : Tree) (path : Bytes) : Except FileFault FileInfo :=
  match t.lookup path with
  | .ok (_, .file _ data mode) => .ok ⟨false, mode, data.length⟩
  | .ok (_, .directory mode) => .ok ⟨true, mode, 0⟩
  | .error reason => refuse "stat" path reason

def readAt (t : Tree) (path : Bytes) : Except FileFault Bytes :=
  match t.lookup path with
  | .ok (_, .file _ data _) => .ok data
  | .ok (_, .directory _) => refuse "read" path .isDirectory
  | .error reason => refuse "open" path reason

def listAt (t : Tree) (path : Bytes) : Except FileFault (List DirectoryEntry) :=
  match t.lookup path with
  | .ok (place, .directory _) => .ok (t.entries place)
  | .ok (_, .file ..) => refuse "open" path .notDirectory
  | .error reason => refuse "open" path reason

/-- Makes a directory; slashes at the end of its path do not matter, unless they
make it too long. -/
def makeDirectoryAt (t : Tree) (path : Bytes) : Except FileFault Unit × Tree :=
  match t.resolve (if maxPath ≤ path.length then path
      else (path.reverse.dropWhile (· == Bytes.slash)).reverse) with
  | .error reason => (refuse "mkdir" path reason, t)
  | .ok place =>
    match t.find? place with
    | some _ => (refuse "mkdir" path .alreadyExists, t)
    | none => (.ok (), t.insert place (.directory 0o755))

/-- Changes the content of a file, which is made with `mode` if missing. -/
def editAt (t : Tree) (path : Bytes) (mode : Nat) (edit : Bytes → Bytes) :
    Except FileFault FileId × Tree :=
  match t.resolve path with
  | .error reason => (refuse "open" path reason, t)
  | .ok place =>
    match t.find? place with
    | some (.directory _) => (refuse "open" path .isDirectory, t)
    | some (.file id data mode) => (.ok id, t.insert place (.file id (edit data) mode))
    | none =>
      let (id, t) := t.addFile place (edit []) mode
      (.ok id, t)

def isUnused (t : Tree) (path : Bytes) : Bool :=
  match t.lookup path with
  | .ok _ => false
  | .error _ => true

def temporaryPath (t : Tree) (directory front : Bytes) : Bytes :=
  let candidate (n : Nat) : Bytes :=
    Path.join [directory, front ++ Bytes.decimal (1000000000 + n) ++ ".tmp"]
  let count := t.nodes.length
  candidate (((List.range count).find? fun n => t.isUnused (candidate n)).getD count)

def writeTemporaryAt (t : Tree) (directory front data : Bytes) : Except FileFault Bytes × Tree :=
  let path := t.temporaryPath directory front
  match t.editAt path 0o600 fun _ => data with
  | (.ok _, t) => (.ok path, t)
  | (.error fault, t) => (.error fault, t)

def setModeAt (t : Tree) (path : Bytes) (mode : Nat) : Except FileFault Unit × Tree :=
  match t.lookup path with
  | .ok (place, .file id data _) => (.ok (), t.insert place (.file id data mode))
  | .ok (place, .directory _) => (.ok (), t.insert place (.directory mode))
  | .error reason => (refuse "chmod" path reason, t)

/-- Whether a path names a directory as seen from inside, or the root, so that
it cannot be moved. -/
def isPinned (path : Bytes) (place : NodePath) : Bool :=
  let last := (components (path.reverse.dropWhile (· == Bytes.slash)).reverse).getLastD []
  place.isEmpty || last == "." || last == ".."

def renameAt (t : Tree) (source target : Bytes) : Except FileFault Unit × Tree :=
  let both := source ++ " " ++ target
  match t.lookup source, t.resolve target with
  | .ok (place, node), .ok goal =>
    match t.find? goal with
    | some (.directory _) => (refuse "rename" both .alreadyExists, t)
    | found? =>
      if isPinned source place then (refuse "rename" both .busy, t)
      else if node.isDirectory && found?.isSome then (refuse "rename" both .notDirectory, t)
      else if node.isDirectory && place.isPrefixOf goal then (refuse "rename" both .invalid, t)
      else (.ok (), t.move place goal)
  | .error reason, _ => (refuse "rename" both reason, t)
  | _, .error reason => (refuse "rename" both reason, t)

def removeAt (t : Tree) (path : Bytes) : Except FileFault Unit × Tree :=
  match t.lookup path with
  | .error reason => (refuse "remove" path reason, t)
  | .ok (place, .file ..) => (.ok (), t.erase place)
  | .ok (place, .directory _) =>
    if (t.entries place).isEmpty then (.ok (), t.erase place)
    else (refuse "remove" path .notEmpty, t)

def openFileAt (t : Tree) (path : Bytes) : Except FileFault FileId :=
  match t.lookup path with
  | .ok (_, .file id _ _) => .ok id
  | .ok (_, .directory _) => refuse "open" path .isDirectory
  | .error reason => refuse "open" path reason

/-- Opens a file, which is made empty if it is missing. -/
def openOrMakeAt (t : Tree) (path : Bytes) (mode : Nat) : Except FileFault FileId × Tree :=
  match t.openFileAt path with
  | .ok file => (.ok file, t)
  | .error _ => t.editAt path mode id

def lockAt (t : Tree) (path : Bytes) : Except LockFault FileId × Tree :=
  match t.openOrMakeAt path 0o600 with
  | (.error fault, t) => (.error (.file fault), t)
  | (.ok file, t) =>
    if t.locks.contains file then (.error .busy, t)
    else (.ok file, { t with locks := file :: t.locks })

def unlock (t : Tree) (file : FileId) : Tree :=
  { t with locks := t.locks.filter (· != file) }

/-- Others than its owner may not write to a file that is made. -/
def createAt (t : Tree) (path : Bytes) (mode : Nat) : Except FileFault FileId × Tree :=
  t.editAt path (mode &&& 0o755) fun _ => []

/-- A content with some of it written over, from a position or from the end
on. Zeros fill a gap before the position. -/
def writeOver (position? : Option Nat) (data old : Bytes) : Bytes :=
  let position := position?.getD old.length
  old.take position ++ List.replicate (position - old.length) 0 ++ data ++
    old.drop (position + data.length)

def writeTo (t : Tree) (file : FileId) (position? : Option Nat) (data : Bytes) : Tree :=
  { t with
    nodes := t.nodes.map fun (path, node) =>
      match node with
      | .file id old mode =>
        (path, .file id (if id == file then writeOver position? data old else old) mode)
      | .directory mode => (path, .directory mode) }

def perform (t : Tree) : (c : FileCommand) → c.Answer × Tree
  | .stat path => (t.statAt path, t)
  | .read path => (t.readAt path, t)
  | .list path => (t.listAt path, t)
  | .makeDirectory path => t.makeDirectoryAt path
  | .append path mode data =>
    let (answer, t) := t.editAt path mode (· ++ data)
    (answer.map fun _ => (), t)
  | .write path data =>
    let (answer, t) := t.editAt path 0o644 fun _ => data
    (answer.map fun _ => (), t)
  | .writeTemporary directory front data => t.writeTemporaryAt directory front data
  | .setMode path mode => t.setModeAt path mode
  | .rename source target => t.renameAt source target
  | .remove path => t.removeAt path
  | .lock path => t.lockAt path
  | .unlock file => ((), t.unlock file)
  | .openFile path => (t.openFileAt path, t)
  | .create path mode => t.createAt path mode
  | .writeTo file position? data => ((), t.writeTo file position? data)

def run {α : Type} : FileProgram α → Tree → α × Tree
  | .done a, t => (a, t)
  | .call c next, t =>
    let (answer, t) := t.perform c
    run (next answer) t

end Tree

end ScanTriage
