import ScanTriage.Text.Case
import ScanTriage.Json.Reader
import ScanTriage.Number.Integer
import ScanTriage.Triage.Report

/-!
# History records

One line of the history: what a run over a report found. Reading a line is
strict on JSON and on types. Names of members match in any letter case, names
that are not known are passed over, and of members that repeat the last one
counts.
-/

namespace ScanTriage

structure IdCounts where
  confirmed : Int64 := 0
  falsePositives : Int64 := 0
  needsReview : Int64 := 0
  deriving DecidableEq

namespace IdCounts

def total (c : IdCounts) : Int64 := c.confirmed + c.falsePositives + c.needsReview

def add (c : IdCounts) : Classification → IdCounts
  | .confirmed => { c with confirmed := c.confirmed + 1 }
  | .falsePositive => { c with falsePositives := c.falsePositives + 1 }
  | .needsReview => { c with needsReview := c.needsReview + 1 }
  | .other .. => c

def toJson (c : IdCounts) : Json :=
  .object
    [ ("confirmed", .int c.confirmed),
      ("false_positives", .int c.falsePositives),
      ("needs_review", .int c.needsReview) ]

end IdCounts

/-- A table in ascending order of its keys, each of which stands once. -/
abbrev SortedTable (α : Type) := List (Bytes × α)

namespace SortedTable

/-- Changes the value under a key, which is `default` where there is none. -/
def update {α : Type} (key : Bytes) (default : α) (f : α → α) : SortedTable α → SortedTable α
  | [] => [(key, f default)]
  | (k, v) :: rest =>
    if k == key then (k, f v) :: rest
    else if decide (key < k) then (key, f default) :: (k, v) :: rest
    else (k, v) :: update key default f rest

def set {α : Type} (key : Bytes) (value : α) (table : SortedTable α) : SortedTable α :=
  update key value (fun _ => value) table

end SortedTable

structure HistoryRecord where
  runId : Bytes := []
  timestamp : Bytes := []
  /-- The absolute path of the report. -/
  report : Bytes := []
  toolVersion : Bytes := []
  /-- The number of findings in the report, recognized or not. -/
  totalFindings : Int64 := 0
  maxFindings : Int64 := 0
  reviewed : Int64 := 0
  summary : Summary := {}
  breakdown : Breakdown := {}
  byId : SortedTable IdCounts := []
  deriving DecidableEq

namespace HistoryRecord

def ofReport (path : Bytes) (totalFindings : Int64) (r : Report) (toolVersion : Bytes) :
    HistoryRecord where
  runId := r.runId
  timestamp := r.timestamp
  report := path
  toolVersion := toolVersion
  totalFindings := totalFindings
  maxFindings := r.scope.maxReviewed
  reviewed := r.scope.reviewed
  summary := r.summary
  breakdown := r.breakdown
  byId := r.records.foldl (fun table rec =>
    SortedTable.update rec.key.id {} (·.add rec.decision.classification) table) []

/-- The version and the table are left out when they are empty. -/
def toJson (r : HistoryRecord) : Json :=
  .record
    [ some ("run_id", .string r.runId),
      some ("timestamp", .string r.timestamp),
      some ("report", .string r.report),
      if r.toolVersion.isEmpty then none else some ("tool_version", .string r.toolVersion),
      some ("total_findings", .int r.totalFindings),
      some ("max_findings", .int r.maxFindings),
      some ("reviewed", .int r.reviewed),
      some ("summary", r.summary.toJson),
      some ("confidence_breakdown", r.breakdown.toJson),
      if r.byId.isEmpty then none
        else some ("by_id", .object (r.byId.map fun (id, counts) => (id, counts.toJson))) ]

/-- The line of a record, without its line break. -/
def toLine (r : HistoryRecord) : Bytes := r.toJson.write true

/-! ## Reading -/

/-- A string; a null leaves the value as it was. -/
def readText (old : Bytes) : Json → Option Bytes
  | .string s => some s
  | .null => some old
  | _ => none

/-- A whole number of 64 bits; a null leaves the value as it was. -/
def readInt (old : Int64) : Json → Option Int64
  | .number text =>
    match Integer.readDecimal text with
    | .ok n => some n
    | .error _ => none
  | .null => some old
  | _ => none

/-- Reads the members of an object one after the other into `old`. -/
def readObject {α : Type} (member : α → Bytes → Json → Option α) (old : α) : Json → Option α
  | .object members => members.foldlM (fun value (name, json) => member value name json) old
  | .null => some old
  | _ => none

def readSummary : Summary → Json → Option Summary :=
  readObject fun s name json =>
    if Text.isNamed "confirmed_issues" name then
      (readInt s.confirmed json).map fun n => { s with confirmed := n }
    else if Text.isNamed "false_positives" name then
      (readInt s.falsePositives json).map fun n => { s with falsePositives := n }
    else if Text.isNamed "needs_review" name then
      (readInt s.needsReview json).map fun n => { s with needsReview := n }
    else if Text.isNamed "confidence_level" name then
      (readText s.confidence.label json).map fun t => { s with confidence := .ofLabel t }
    else some s

def readBreakdown : Breakdown → Json → Option Breakdown :=
  readObject fun b name json =>
    if Text.isNamed "high" name then (readInt b.high json).map fun n => { b with high := n }
    else if Text.isNamed "medium" name then
      (readInt b.medium json).map fun n => { b with medium := n }
    else if Text.isNamed "low" name then (readInt b.low json).map fun n => { b with low := n }
    else some b

def readCounts : Json → Option IdCounts :=
  readObject (fun c name json =>
    if Text.isNamed "confirmed" name then
      (readInt c.confirmed json).map fun n => { c with confirmed := n }
    else if Text.isNamed "false_positives" name then
      (readInt c.falsePositives json).map fun n => { c with falsePositives := n }
    else if Text.isNamed "needs_review" name then
      (readInt c.needsReview json).map fun n => { c with needsReview := n }
    else some c) {}

/-- The table per identifier. A null empties it, and an identifier that
repeats is taken anew. -/
def readById (old : SortedTable IdCounts) : Json → Option (SortedTable IdCounts)
  | .null => some []
  | .object members =>
    members.foldlM (fun table (id, json) =>
      (readCounts json).map fun counts => SortedTable.set id counts table) old
  | _ => none

def ofJson? : Json → Option HistoryRecord :=
  readObject (fun r name json =>
    if Text.isNamed "run_id" name then
      (readText r.runId json).map fun t => { r with runId := t }
    else if Text.isNamed "timestamp" name then
      (readText r.timestamp json).map fun t => { r with timestamp := t }
    else if Text.isNamed "report" name then
      (readText r.report json).map fun t => { r with report := t }
    else if Text.isNamed "tool_version" name then
      (readText r.toolVersion json).map fun t => { r with toolVersion := t }
    else if Text.isNamed "total_findings" name then
      (readInt r.totalFindings json).map fun n => { r with totalFindings := n }
    else if Text.isNamed "max_findings" name then
      (readInt r.maxFindings json).map fun n => { r with maxFindings := n }
    else if Text.isNamed "reviewed" name then
      (readInt r.reviewed json).map fun n => { r with reviewed := n }
    else if Text.isNamed "summary" name then
      (readSummary r.summary json).map fun s => { r with summary := s }
    else if Text.isNamed "confidence_breakdown" name then
      (readBreakdown r.breakdown json).map fun b => { r with breakdown := b }
    else if Text.isNamed "by_id" name then
      (readById r.byId json).map fun t => { r with byId := t }
    else some r) {}

def ofLine? (line : Bytes) : Option HistoryRecord := Json.read? line >>= ofJson?

/-! ## Comparing runs -/

structure Delta where
  confirmed : Int64
  falsePositives : Int64
  needsReview : Int64
  deriving DecidableEq

def Delta.isZero (d : Delta) : Bool :=
  d.confirmed == 0 && d.falsePositives == 0 && d.needsReview == 0

def since (current previous : HistoryRecord) : Delta :=
  ⟨current.summary.confirmed - previous.summary.confirmed,
    current.summary.falsePositives - previous.summary.falsePositives,
    current.summary.needsReview - previous.summary.needsReview⟩

end HistoryRecord

end ScanTriage
