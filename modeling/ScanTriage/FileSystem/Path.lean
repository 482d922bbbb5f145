import ScanTriage.Text.Bytes

/-!
# Path texts

Computations on paths that look at their text only.
-/

namespace ScanTriage

namespace Path

def isAbsolute (path : Bytes) : Bool := path.head? == some Bytes.slash

/-- One more component of a path, the last one first. -/
def push (rooted : Bool) (stack : List Bytes) (part : Bytes) : List Bytes :=
  if part.isEmpty || part == "." then stack
  else if part == ".." then
    match stack with
    | [] => if rooted then [] else [part]
    | top :: below => if top == ".." then part :: stack else below
  else part :: stack

/-- The shortest path that means the same by its text. -/
def clean (path : Bytes) : Bytes :=
  let rooted := isAbsolute path
  let parts := ((Bytes.split Bytes.slash path).foldl (push rooted) []).reverse
  let body := Bytes.join "/" parts
  if rooted then Bytes.slash :: body
  else if parts.isEmpty then "."
  else body

/-- Paths one under the other; empty ones count for nothing. -/
def join (parts : List Bytes) : Bytes :=
  match parts.filter fun p => !p.isEmpty with
  | [] => []
  | parts => clean (Bytes.join "/" parts)

def directory (path : Bytes) : Bytes := clean (Bytes.throughLast Bytes.slash path)

/-- What stands before the last component of a path, just as it is written and
without the slash between them. -/
def above (path : Bytes) : Bytes :=
  (Bytes.throughLast Bytes.slash (path.reverse.dropWhile (· == Bytes.slash)).reverse).dropLast

def base (path : Bytes) : Bytes :=
  match path.reverse.dropWhile (· == Bytes.slash) with
  | [] => if path.isEmpty then "." else "/"
  | reversed => (reversed.takeWhile (· != Bytes.slash)).reverse

/-- The end of a name from its last dot on, or nothing without one. -/
def extension (name : Bytes) : Bytes :=
  if name.contains Bytes.dot then Bytes.dot :: Bytes.afterLast Bytes.dot name else []

def absolute (working path : Bytes) : Bytes :=
  if isAbsolute path then clean path else join [working, path]

end Path

end ScanTriage
