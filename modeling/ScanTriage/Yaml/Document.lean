import ScanTriage.Yaml.Scalar

/-!
# YAML documents

Sequences and mappings in block form, two spaces deeper at each level. Empty
ones are written on the line of their name.
-/

namespace ScanTriage

inductive Yaml where
  | text (value : Bytes)
  | int (value : Int64)
  | bool (value : Bool)
  | sequence (items : List Yaml)
  | mapping (members : List (Bytes × Yaml))

namespace Yaml

/-- A mapping of those members that are there. -/
def record (members : List (Option (Bytes × Yaml))) : Yaml := mapping (members.filterMap id)

/-- Whether a value takes lines of its own. -/
def isNested : Yaml → Bool
  | sequence (_ :: _) => true
  | mapping (_ :: _) => true
  | _ => false

/-- What stands between the colon after a name and the value. -/
def separator (indent : Nat) (value : Yaml) : Bytes :=
  if value.isNested then Bytes.newline :: spaces indent else [Bytes.space]

mutual

/-- A value whose first line starts after `indent` columns, which are already
there. -/
def block (indent : Nat) : Yaml → Bytes
  | text value => writeText indent value
  | int value => Bytes.decimalInt64 value ++ [Bytes.newline]
  | bool true => "true\n"
  | bool false => "false\n"
  | sequence [] => "[]\n"
  | sequence (item :: items) => "- " ++ block (indent + 2) item ++ blockItems indent items
  | mapping [] => "\x7b\x7d\n"
  | mapping ((name, value) :: members) =>
    name ++ ":" ++ separator (indent + 2) value ++ block (indent + 2) value ++
      blockMembers indent members

def blockItems (indent : Nat) : List Yaml → Bytes
  | [] => []
  | item :: items => spaces indent ++ "- " ++ block (indent + 2) item ++ blockItems indent items

def blockMembers (indent : Nat) : List (Bytes × Yaml) → Bytes
  | [] => []
  | (name, value) :: members =>
    spaces indent ++ name ++ ":" ++ separator (indent + 2) value ++ block (indent + 2) value ++
      blockMembers indent members

end

def render (value : Yaml) : Bytes := block 0 value

end Yaml

end ScanTriage
