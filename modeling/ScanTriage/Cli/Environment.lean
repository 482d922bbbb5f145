import ScanTriage.Text.Bytes

/-!
# The environment of a process

A process has every variable once: of assignments to one name, the value is
that of the last and the place that of the first.
-/

namespace ScanTriage

namespace Cli

namespace Environment

/-- Assigns a variable, in its old place if it has one. -/
def assign (name value : Bytes) : List (Bytes × Bytes) → List (Bytes × Bytes)
  | [] => [(name, value)]
  | (n, v) :: rest => if n == name then (n, value) :: rest else (n, v) :: assign name value rest

/-- Carries out an assignment. One without a name or with a zero byte has no
effect. -/
def add (known : List (Bytes × Bytes)) (assignment : Bytes) : List (Bytes × Bytes) :=
  match Bytes.cut? Bytes.equals assignment with
  | some (name, value) =>
    if name.isEmpty || assignment.contains 0 then known else assign name value known
  | none => known

/-- The assignments that are left when all were carried out. -/
def settle (assignments : List Bytes) : List Bytes :=
  (assignments.foldl add []).map fun (name, value) => name ++ Bytes.equals :: value

end Environment

end Cli

end ScanTriage
