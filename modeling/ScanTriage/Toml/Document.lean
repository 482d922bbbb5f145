import ScanTriage.Toml.Syntax

/-!
# TOML documents

Carries the statements of a text out, one after the other, on a tree of
tables, and refuses those that define something twice. A table that only came
into being as the parent of another may be defined once. An array that is
descended into as a table gives way to an empty table.
-/

namespace ScanTriage

namespace Toml

inductive Item where
  /-- A value that is no inline table. -/
  | value (value : Value)
  | table (members : List (Bytes × Item))
  /-- An array of tables, the latest first. -/
  | tables (latest : List (Bytes × Item)) (earlier : List (List (Bytes × Item)))

abbrev Members := List (Bytes × Item)

/-- Sets a name, in its old place if it has one. -/
def put (name : Bytes) (item : Item) : Members → Members
  | [] => [(name, item)]
  | (n, i) :: rest => if n == name then (n, item) :: rest else (n, i) :: put name item rest

/-- Changes the table at a path; in arrays of tables the latest counts. -/
def modify? (change : Members → Option Members) : Key → Members → Option Members
  | [], members => change members
  | name :: path, members =>
    match members.lookup name with
    | some (.table inner) => do
      let inner ← modify? change path inner
      some (put name (.table inner) members)
    | some (.tables latest earlier) => do
      let latest ← modify? change path latest
      some (put name (.tables latest earlier) members)
    | _ => none

/-- Sets a name in the table at a path. The parts of the path must be tables,
and are made where they are missing. -/
def putBelow? (name : Bytes) (item : Item) : Key → Members → Option Members
  | [], members => some (put name item members)
  | part :: path, members =>
    match members.lookup part with
    | none => do
      let inner ← putBelow? name item path []
      some (put part (.table inner) members)
    | some (.table inner) => do
      let inner ← putBelow? name item path inner
      some (put part (.table inner) members)
    | some _ => none

structure Document where
  root : Members := []
  /-- Tables that exist only as parents. -/
  implied : List Key := []
  /-- Keys noted to hold an array. -/
  arrays : List Key := []
  /-- The table that assignments go to. -/
  context : Key := []

namespace Document

def imply (key : Key) (d : Document) : Document := { d with implied := key :: d.implied }

def settle (key : Key) (d : Document) : Document :=
  { d with implied := d.implied.filter (· != key) }

/-- Notes whether a name of the current table holds an array. What is said of
the empty name is noted of the current table itself, unless that is the root. -/
def noteArray (name : Bytes) (isArray : Bool) (d : Document) : Document :=
  let key := if name.isEmpty && !d.context.isEmpty then d.context else d.context ++ [name]
  let others := d.arrays.filter (· != key)
  { d with arrays := if isArray then key :: others else others }

def has (path : Key) (name : Bytes) (d : Document) : Bool :=
  (modify? (fun members => if (members.lookup name).isSome then some members else none)
    path d.root).isSome

def change? (path : Key) (change : Members → Members) (d : Document) : Option Document :=
  (modify? (fun members => some (change members)) path d.root).map fun root =>
    { d with root := root }

/-- Defines a name in the current table. A name that was only implied keeps
what it stands for, unless that is noted as an array, and is implied no
longer. -/
def define? (name : Bytes) (item : Item) (d : Document) : Option Document :=
  let key := d.context ++ [name]
  if !d.has d.context name then d.change? d.context (put name item)
  else if !d.implied.contains key then none
  else if d.arrays.contains key then (d.settle key).change? d.context (put name item)
  else some (d.settle key)

/-- Makes sure that a table has a name, which is implied if it is new. -/
def reach? (path : Key) (name : Bytes) (d : Document) : Option Document :=
  if d.has path name then some d
  else (d.imply (path ++ [name])).change? path (put name (.table []))

/-- The parents of a key, from the root down. -/
def reachAll? : (above path : Key) → Document → Option Document
  | _, [], d => some d
  | above, name :: path, d => do
    let d ← reach? above name d
    reachAll? (above ++ [name]) path d

/-- Moves to the table with this key, which is defined thereby; in an array of
tables a new one is added. -/
def enter? (key : Key) (isArray : Bool) (d : Document) : Option Document := do
  let parent := key.dropLast
  let name := key.getLastD []
  let d ← reachAll? [] parent d
  let d := { d with context := parent }
  if isArray then
    let root ← modify? (fun members =>
      match members.lookup name with
      | none => some (put name (.tables [] []) members)
      | some (.tables latest earlier) => some (put name (.tables [] (latest :: earlier)) members)
      | some _ => none) parent d.root
    some { d with root := root, context := key }
  else
    let d ← define? name (.table []) d
    some { d with context := key }

/-- Moves down a dotted key, whose parts may be defined later. -/
def descend? : (path : Key) → Document → Option Document
  | [], d => some d
  | name :: path, d => do
    let key := d.context ++ [name]
    let d ← enter? key false (d.imply key)
    descend? path d

def isArray : Value → Bool
  | .array _ => true
  | _ => false

mutual

/-- Carries out what a value brings along before it is set under `name`, and
answers what the name is to stand for. -/
def prepare? (name : Bytes) : (inArray : Bool) → Value → Document → Option (Item × Document)
  | _, .array items, d => do
    let d ← prepareAll? name items (d.noteArray name true)
    some (.value (.array items), d)
  | inArray, .inline members, d => do
    let outer := d.context
    let key := outer ++ [name]
    let d ← enter? key inArray (d.imply key)
    let (own, d) ← assignAll? key members [] d
    some (.table own, { d with context := outer })
  | _, value, d => some (.value value, d)

def prepareAll? (name : Bytes) : List Value → Document → Option Document
  | [], d => some d
  | item :: items, d => do
    let (_, d) ← prepare? name true item d
    prepareAll? name items d

/-- Assigns the members of an inline table at `context`. They are also put
together in `own`, where no part of a key may be anything but a table. -/
def assignAll? (context : Key) : List (Key × Value) → (own : Members) → Document →
    Option (Members × Document)
  | [], own, d => some (own, d)
  | (key, value) :: members, own, d => do
    let name := key.getLastD []
    let d ← descend? key.dropLast { d with context := context }
    let (item, d) ← prepare? name false value d
    let d ← define? name item d
    let own ← putBelow? name item key.dropLast own
    assignAll? context members own { d.noteArray name (isArray value) with context := context }

end

def carryOut? (d : Document) : Statement → Option Document
  | .table key => do
    let d ← enter? key false d
    some (d.noteArray [] false)
  | .arrayTable key => do
    let d ← enter? key true d
    some (d.noteArray [] false)
  | .assign key value => do
    let outer := d.context
    let name := key.getLastD []
    let d ← descend? key.dropLast d
    let (item, d) ← prepare? name false value d
    let d ← define? name item d
    some { d.noteArray name (isArray value) with context := outer }

end Document

/-- The top-level names of a configuration text and what they stand for. -/
def read? (s : Bytes) : Option Members := do
  let statements ← statements? s
  let d ← statements.foldlM Document.carryOut? {}
  some d.root

end Toml

end ScanTriage
