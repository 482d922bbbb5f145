import ScanTriage.Text.Space
import ScanTriage.Json.Glimpse

/-!
# Findings

One flagged location of a scan report: where it is, the flagged line, the
snippets around it, and what the scanner knows about guards and sanitization.
Reading never fails; a field that is missing or of another type is empty.
-/

namespace ScanTriage

/-- A yes-or-no answer that the scanner may not have given. -/
inductive Flag where
  | unknown
  | no
  | yes
  deriving DecidableEq

namespace Flag

def isKnown : Flag → Bool
  | unknown => false
  | _ => true

def isYes : Flag → Bool
  | yes => true
  | _ => false

def label : Flag → Bytes
  | yes => "true"
  | no => "false"
  | unknown => "unknown"

def toJson : Flag → Json
  | yes => .bool true
  | no => .bool false
  | unknown => .null

/-- Only `true` and `false` are answers. -/
def ofGlimpse (value : Json.Glimpse) : Flag :=
  match value.shape with
  | .bool true => yes
  | .bool false => no
  | _ => unknown

end Flag

structure Snippet where
  line : Int64 := 0
  code : Bytes
  deriving DecidableEq

structure Finding where
  id : Bytes := []
  file : Bytes := []
  line : Int64 := 0
  message : Bytes := []
  code : Bytes := []
  context : List Snippet := []
  guarded : Flag := .unknown
  sanitized : Flag := .unknown
  deriving DecidableEq

/-- A line number: a number, or a numeral in a string; anything else is zero. -/
def lineNumber (value : Json.Glimpse) : Int64 :=
  match value.shape with
  | .number => value.numberToInt
  | .string text =>
    match Integer.readDecimal (Text.trim text) with
    | .ok n => n
    | .error _ => 0
  | _ => 0

namespace Snippet

/-- A snippet is an object or just its code. -/
def ofGlimpse (value : Json.Glimpse) : Snippet :=
  match value.shape with
  | .string text => { code := text }
  | _ => { line := lineNumber (value.get "line"), code := (value.get "code").text }

/-- The line is left out when it is not known. -/
def toJson (s : Snippet) : Json :=
  .record
    [ if s.line == 0 then none else some ("line", .int s.line),
      some ("code", .string s.code) ]

end Snippet

namespace Finding

/-- Reads a finding; what is no object is an empty finding. -/
def ofGlimpse (value : Json.Glimpse) : Finding :=
  if value.isObject then
    let members := Json.Glimpse.members value.raw
    let get (name : Bytes) := Json.Glimpse.pick name members
    let context := get "context"
    { id := (get "id").text
      file := (get "file").text
      line := lineNumber (get "line")
      message := (get "message").text
      code := (get "code").text
      context := if context.isArray then context.elements.map Snippet.ofGlimpse else []
      guarded := .ofGlimpse (get "guarded")
      sanitized := .ofGlimpse (get "sanitized") }
  else {}

def ofText (s : Bytes) : Finding := ofGlimpse (.ofText s)

/-- The findings of a report in their order, or nothing if the report has no
list of findings. -/
def listOfReport? (report : Bytes) : Option (List Finding) :=
  let found := Json.Glimpse.find "findings" report
  if found.isArray then some (found.elements.map ofGlimpse) else none

/-- The context is left out when it is empty. -/
def toJson (f : Finding) : Json :=
  .record
    [ some ("id", .string f.id),
      some ("file", .string f.file),
      some ("line", .int f.line),
      some ("message", .string f.message),
      some ("code", .string f.code),
      if f.context.isEmpty then none
        else some ("context", .array (f.context.map Snippet.toJson)),
      some ("guarded", f.guarded.toJson),
      some ("sanitized", f.sanitized.toJson) ]

/-- A report without a list of findings differs from one with an empty list. -/
def listToJson (findings? : Option (List Finding)) : Json :=
  .list? (findings?.map (·.map toJson))

end Finding

end ScanTriage
