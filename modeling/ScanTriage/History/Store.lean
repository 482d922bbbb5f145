import ScanTriage.Text.Space
import ScanTriage.Sorting.Quicksort
import ScanTriage.Gzip
import ScanTriage.FileSystem.Path
import ScanTriage.FileSystem.Program
import ScanTriage.History.Record

/-!
# The history store

The history of a state directory: one line for each run in the active file,
and numbered archives with the lines that were moved out of it. `append` adds
a record and moves all but the last lines into a new archive when there are
too many; `records` reads everything, the oldest first.
-/

namespace ScanTriage

namespace History

def fileName : Bytes := "triage-history.jsonl"

def path (stateDir : Bytes) : Bytes := Path.join [stateDir, fileName]

def archiveFront : Bytes := fileName ++ "."

def archiveBack : Bytes := ".gz"

/-- So many archives are kept. -/
def maxArchives : Nat := 5

/-- A line must be shorter than this. -/
def maxLine : Nat := 1024 * 1024

structure Archive where
  number : Int64
  path : Bytes
  deriving DecidableEq

inductive Entry where
  | archive (number : Int64)
  | foreign
  /-- A name in which front and back of an archive name overlap. -/
  | overlapping
  deriving DecidableEq

/-- Tells an archive by its name: a positive number between front and back. -/
def Entry.of (e : DirectoryEntry) : Entry :=
  if e.isDirectory || !archiveFront.isPrefixOf e.name || !archiveBack.isSuffixOf e.name then
    .foreign
  else if e.name.length < archiveFront.length + archiveBack.length then .overlapping
  else
    let digits :=
      (e.name.drop archiveFront.length).take
        (e.name.length - archiveFront.length - archiveBack.length)
    match Integer.readDecimal digits with
    | .ok n => if n < 1 then .foreign else .archive n
    | .error _ => .foreign

inductive ListFault where
  | file (fault : FileFault)
  | overlapping

/-- Archives by ascending number. Those of one number stand as quicksort leaves
them, which need not be the order of their names. -/
def ascending (found : List Archive) : List Archive :=
  Quicksort.sort (fun a b => a.number < b.number) found

/-- The archives among directory entries, by ascending number; nothing if one
of the names makes no sense. -/
def archivesAmong (dir : Bytes) (entries : List DirectoryEntry) : Option (List Archive) :=
  if entries.any fun e => Entry.of e == .overlapping then none
  else
    let found := entries.filterMap fun e =>
      match Entry.of e with
      | .archive n => some ⟨n, Path.join [dir, e.name]⟩
      | _ => none
    some (ascending found)

def archives (dir : Bytes) : FileProgram (Except ListFault (List Archive)) := do
  match ← .perform (.list dir) with
  | .error fault => pure (.error (.file fault))
  | .ok entries =>
    match archivesAmong dir entries with
    | some found => pure (.ok found)
    | none => pure (.error .overlapping)

/-! ## Lines -/

/-- A finished line, given in reverse: without a carriage return at its end,
and with a newline. -/
def finishLine (reversed : Bytes) : Bytes :=
  let body :=
    match reversed with
    | Bytes.carriageReturn :: rest => rest
    | _ => reversed
  (Bytes.newline :: body).reverse

/-- The lines of a text behind those in `acc`, where `size` bytes of the
current line stand in reverse in `line`. -/
def linesOnto : Bytes → (line : Bytes) → (size : Nat) → (acc : List Bytes) → Option (List Bytes)
  | [], line, size, acc =>
    if size == 0 then some acc.reverse
    else if maxLine ≤ size then none
    else some (finishLine line :: acc).reverse
  | b :: rest, line, size, acc =>
    if b == Bytes.newline then
      if maxLine ≤ size then none else linesOnto rest [] 0 (finishLine line :: acc)
    else linesOnto rest (b :: line) (size + 1) acc

/-- The lines of a text, each with a newline; nothing if one is too long. -/
def lines? (s : Bytes) : Option (List Bytes) := linesOnto s [] 0 []

def lineTooLong : Fault := .plain "bufio.Scanner: token too long"

/-- The records of lines, counted from `number`. Blank lines hold none. -/
def parseFrom : (number : Nat) → List Bytes → List HistoryRecord → Except Fault (List HistoryRecord)
  | _, [], acc => .ok acc.reverse
  | number, line :: rest, acc =>
    let line := Text.trim line
    if line.isEmpty then parseFrom (number + 1) rest acc
    else
      match HistoryRecord.ofLine? line with
      | some record => parseFrom (number + 1) rest (record :: acc)
      | none =>
        .error (.labelled ("history line " ++ Bytes.decimal number) (.plain "not a record"))

def parse (lines : List Bytes) : Except Fault (List HistoryRecord) := parseFrom 1 lines []

def parseArchive (packed : Bytes) : Except Fault (List HistoryRecord) :=
  match Gzip.unpack packed with
  | .error why => .error (.plain why.message)
  | .ok text =>
    match lines? text with
    | none => .error lineTooLong
    | some lines => parse lines

/-! ## Reading -/

def give {α : Type} : Except Fault α → FileTask α
  | .ok a => pure a
  | .error fault => throw fault

def readArchives : List Archive → FileTask (List HistoryRecord)
  | [] => pure []
  | a :: rest => do
    let packed ← .orTell "Could not read history archive." (.perform (.read a.path))
    let first ← give ((parseArchive packed).mapError (.user "Could not read history archive."))
    let others ← readArchives rest
    pure (first ++ others)

/-- The records of the active file, none if it is missing. -/
def readActive (stateDir : Bytes) : FileTask (List HistoryRecord) := do
  let tell (cause : Fault) : Fault := .user "Could not read history file." cause
  match ← (FileProgram.perform (.read (path stateDir)) : FileProgram _) with
  | .error fault => if fault.reason == .notFound then pure [] else throw (tell fault.toFault)
  | .ok text =>
    match lines? text with
    | none => throw (tell lineTooLong)
    | some lines => give ((parse lines).mapError (.user "History file is corrupt."))

/-- Every record of a state directory, the oldest first. A directory that is
missing holds none. -/
def records (stateDir : Bytes) : FileTask (List HistoryRecord) := do
  match ← (archives stateDir : FileProgram _) with
  | .error .overlapping => throw .aborted
  | .error (.file fault) =>
    if fault.reason == .notFound then pure []
    else throw (.user "Could not read history directory." fault.toFault)
  | .ok found => do
    let old ← readArchives found
    let recent ← readActive stateDir
    pure (old ++ recent)

def latestFor? (report : Bytes) (records : List HistoryRecord) : Option HistoryRecord :=
  records.reverse.find? (·.report == report)

def previous (stateDir report : Bytes) : FileTask (Option HistoryRecord) := do
  let all ← records stateDir
  pure (latestFor? report all)

/-! ## Appending -/

/-- Removes archives until few enough are left, the oldest first. -/
def prune : (excess : Nat) → List Archive → FileTask Unit
  | 0, _ => pure ()
  | _, [] => pure ()
  | excess + 1, a :: rest => do
    .orTell "Could not prune history archives." (.perform (.remove a.path))
    prune excess rest

/-- Replaces a file by way of a temporary one beside it. -/
def replaceFile (path : Bytes) (data : Bytes) : FileProgram (Except FileFault Unit) := do
  match ← .perform (.writeTemporary (Path.directory path) "triage-history." data) with
  | .error fault => pure (.error fault)
  | .ok temporary =>
    match ← .perform (.rename temporary path) with
    | .ok _ => pure (.ok ())
    | .error fault => do
      let _ ← .perform (.remove temporary)
      pure (.error fault)

def nextNumber (found : List Archive) : Int64 :=
  match found.getLast? with
  | some last => last.number + 1
  | none => 1

/-- Moves all but the last `keep` of the lines to a new archive. -/
def rotate (path : Bytes) (lines : List Bytes) (keep : Nat) : FileTask Unit := do
  let dir := Path.directory path
  let moved := lines.take (lines.length - keep)
  let kept := lines.drop (lines.length - keep)
  let found ←
    match ← (archives dir : FileProgram _) with
    | .ok found => pure found
    | .error .overlapping => throw .aborted
    | .error (.file fault) => throw (.user "Could not rotate history file." fault.toFault)
  let number := nextNumber found
  let target := Path.join [dir, archiveFront ++ Bytes.decimalInt64 number ++ archiveBack]
  .orTell "Could not write rotated history archive."
    (.perform (.write target (Gzip.pack moved.flatten)))
  prune (found.length + 1 - maxArchives) (found ++ [⟨number, target⟩])
  .orTell "Could not rotate history file." (replaceFile path kept.flatten)

/-- Rotates the active file if it holds more than `maxRecords` lines. -/
def rotateIfNeeded (path : Bytes) (maxRecords : Int64) : FileTask Unit := do
  let text ← .orTell "Could not read history for rotation." (.perform (.read path))
  match lines? text with
  | none => throw (.user "Could not read history for rotation." lineTooLong)
  | some lines =>
    if Int64.ofNat lines.length ≤ maxRecords then pure ()
    else rotate path lines maxRecords.toNatClampNeg

/-- Adds a record to the history of a state directory, which is made if it is
missing. Without a positive bound the active file is never rotated. -/
def append (stateDir : Bytes) (record : HistoryRecord) (maxRecords : Int64) : FileTask Unit := do
  .orTell "Could not create state directory for history." (.makeDirectories stateDir)
  .orTell "Could not record triage history."
    (.perform (.append (path stateDir) 0o644 (record.toLine ++ [Bytes.newline])))
  if 0 < maxRecords then rotateIfNeeded (path stateDir) maxRecords else pure ()

end History

end ScanTriage
