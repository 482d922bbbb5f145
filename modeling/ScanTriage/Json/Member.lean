import ScanTriage.Json.Glimpse

/-!
# Setting a member of an object

Puts a raw value under a name of the top-level object of a text, and leaves
the bytes around it alone. If the object has the name already, its first value
is exchanged; else the member is added at the end.
-/

namespace ScanTriage

namespace Json

/-- A member cannot be set in an array. -/
structure NotAnObject where
  name : Bytes
  deriving DecidableEq

def NotAnObject.message (fault : NotAnObject) : Bytes :=
  "cannot set array element for non-numeric key '" ++ fault.name ++ "'"

def memberText (name raw : Bytes) : Bytes := writeString true name ++ Bytes.colon :: raw

def singleMember (name raw : Bytes) : Bytes :=
  Bytes.openBrace :: memberText name raw ++ [Bytes.closeBrace]

/-- Whether something stands in an object, so that another member needs a
comma in front. -/
def needsComma (body : Bytes) : Bool :=
  match body.dropWhile (· ≤ 0x20) with
  | [] => false
  | b :: _ => b != Bytes.closeBrace && b != Bytes.closeBracket

/-- The text in front of the last closing brace, or nothing without one. -/
def beforeLastBrace (body : Bytes) : Option Bytes :=
  match body.reverse.dropWhile (· != Bytes.closeBrace) with
  | [] => none
  | _ :: front => some front.reverse

/-- The object that starts with a brace and goes on with `body`, with one more
member before its last brace. What follows that brace is dropped. -/
def addMember (name raw body : Bytes) : Bytes :=
  let front :=
    match beforeLastBrace body with
    | some front => Bytes.openBrace :: front
    | none => []
  front ++ (if needsComma body then [Bytes.comma] else []) ++ memberText name raw ++
    [Bytes.closeBrace]

/-- A text with the first value called `name` exchanged. -/
def exchange (s : Bytes) (found : Glimpse.Member) (raw : Bytes) : Bytes :=
  s.take (s.length - found.value.raw.length - found.rest.length) ++ raw ++ found.rest

/-- Sets a member of the object that a text holds. A text that holds neither
object nor array becomes an object of that member. -/
def setMember (name raw s : Bytes) : Except NotAnObject Bytes :=
  match (Glimpse.members s).find? (·.name == name) with
  | some found => .ok (exchange s found raw)
  | none =>
    match s.dropWhile (· ≤ 0x20) with
    | Bytes.openBrace :: body => .ok (addMember name raw body)
    | Bytes.openBracket :: _ => .error ⟨name⟩
    | _ => .ok (singleMember name raw)

end Json

end ScanTriage
