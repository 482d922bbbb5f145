import ScanTriage.Text.Utf8

/-!
# JSON values and their written form

Members keep their order. A number is kept as its text. `write` puts a value
on one line, `writeIndented` over several; both can spare the three characters
that matter to HTML.
-/

namespace ScanTriage

inductive Json where
  | null
  | bool (value : Bool)
  | number (text : Bytes)
  | string (text : Bytes)
  | array (items : List Json)
  | object (members : List (Bytes × Json))

namespace Json

def int (n : Int64) : Json := number (Bytes.decimalInt64 n)

def nat (n : Nat) : Json := number (Bytes.decimal n)

/-- An object of those members that are there. -/
def record (members : List (Option (Bytes × Json))) : Json := object (members.filterMap id)

def list? : Option (List Json) → Json
  | none => null
  | some items => array items

def member? (name : Bytes) : Json → Option Json
  | object members => members.lookup name
  | _ => none

/-! ## Writing -/

def escape (html : Bool) (code : Nat) : Bytes :=
  if code == 0x22 then "\\\""
  else if code == 0x5C then "\\\\"
  else if code == 0x08 then "\\b"
  else if code == 0x0C then "\\f"
  else if code == 0x0A then "\\n"
  else if code == 0x0D then "\\r"
  else if code == 0x09 then "\\t"
  else if code < 0x20 || code == 0x2028 || code == 0x2029 ||
      (html && (code == 0x3C || code == 0x3E || code == 0x26)) then
    "\\u" ++ Bytes.hex 4 code
  else Utf8.encode code

/-- A string between quotes. A stray byte is written as the character U+FFFD
itself; older versions of the encoder wrote the escape of it. -/
def writeString (html : Bool) (s : Bytes) : Bytes :=
  Bytes.quote :: (Utf8.decode s).flatMap (fun r => escape html r.code) ++ [Bytes.quote]

mutual

/-- The value on one line without spaces. -/
def write (html : Bool) : Json → Bytes
  | null => "null"
  | bool true => "true"
  | bool false => "false"
  | number text => text
  | string text => writeString html text
  | array items => Bytes.openBracket :: writeItems html items ++ [Bytes.closeBracket]
  | object members => Bytes.openBrace :: writeMembers html members ++ [Bytes.closeBrace]

def writeItems (html : Bool) : List Json → Bytes
  | [] => []
  | [item] => write html item
  | item :: items => write html item ++ Bytes.comma :: writeItems html items

def writeMembers (html : Bool) : List (Bytes × Json) → Bytes
  | [] => []
  | [(name, value)] => writeString html name ++ Bytes.colon :: write html value
  | (name, value) :: members =>
    writeString html name ++ Bytes.colon :: write html value ++
      Bytes.comma :: writeMembers html members

end

def lineBreak (level : Nat) : Bytes :=
  Bytes.newline :: List.replicate (2 * level) Bytes.space

mutual

/-- The value with one item or member a line, two spaces deeper at each level. -/
def writeIndented (html : Bool) (level : Nat) : Json → Bytes
  | null => "null"
  | bool true => "true"
  | bool false => "false"
  | number text => text
  | string text => writeString html text
  | array [] => "[]"
  | array items =>
    Bytes.openBracket :: writeItemsIndented html (level + 1) items ++ lineBreak level ++
      [Bytes.closeBracket]
  | object [] => "\x7b\x7d"
  | object members =>
    Bytes.openBrace :: writeMembersIndented html (level + 1) members ++ lineBreak level ++
      [Bytes.closeBrace]

def writeItemsIndented (html : Bool) (level : Nat) : List Json → Bytes
  | [] => []
  | [item] => lineBreak level ++ writeIndented html level item
  | item :: items =>
    lineBreak level ++ writeIndented html level item ++
      Bytes.comma :: writeItemsIndented html level items

def writeMembersIndented (html : Bool) (level : Nat) : List (Bytes × Json) → Bytes
  | [] => []
  | [(name, value)] =>
    lineBreak level ++ writeString html name ++ ": " ++ writeIndented html level value
  | (name, value) :: members =>
    lineBreak level ++ writeString html name ++ ": " ++ writeIndented html level value ++
      Bytes.comma :: writeMembersIndented html level members

end

end Json

end ScanTriage
