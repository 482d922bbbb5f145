import ScanTriage.Text.Quoted
import ScanTriage.Triage.Catalogue
import ScanTriage.Triage.Tally

/-!
# Triage reports

The outcome of a run: its scope, the tallies, the prose and one record for
each finding that was triaged. `Report.check` finds contradictions between
the parts.
-/

namespace ScanTriage

/-- What identifies a finding without its code. -/
structure FindingKey where
  id : Bytes
  file : Bytes
  line : Int64
  deriving DecidableEq

def Finding.key (f : Finding) : FindingKey := ⟨f.id, f.file, f.line⟩

structure TriageRecord where
  key : FindingKey
  decision : Decision
  /-- Whether the finding lies in other people's code; not written out. -/
  thirdParty : Bool := false
  deriving DecidableEq

structure Scope where
  maxReviewed : Int64 := 0
  reviewed : Int64 := 0
  deriving DecidableEq

structure Report where
  performed : Bool
  status : Bytes
  version : Bytes
  runId : Bytes
  timestamp : Bytes
  scope : Scope
  summary : Summary
  breakdown : Breakdown
  narrative : Bytes
  /-- A list that is not there differs from an empty one in writing only. -/
  recommendations? : Option (List Bytes)
  records? : Option (List TriageRecord)
  deriving DecidableEq

/-- The records; none if the list is not there. -/
def Report.records (r : Report) : List TriageRecord := r.records?.getD []

def Tally.ofRecords (records : List TriageRecord) : Tally :=
  records.foldl (fun t r => t.add r.decision.toRuling) {}

def FindingKey.toJson (k : FindingKey) : Json :=
  .object [("id", .string k.id), ("file", .string k.file), ("line", .int k.line)]

def TriageRecord.toJson (r : TriageRecord) : Json :=
  .record (some ("finding_key", r.key.toJson) :: r.decision.members)

def Scope.toJson (s : Scope) : Json :=
  .object [("max_findings_reviewed", .int s.maxReviewed), ("findings_reviewed", .int s.reviewed)]

namespace Report

def formatVersion : Bytes := "1.0"

def toJson (r : Report) : Json :=
  .object
    [ ("performed", .bool r.performed),
      ("status", .string r.status),
      ("version", .string r.version),
      ("run_id", .string r.runId),
      ("timestamp", .string r.timestamp),
      ("scope", r.scope.toJson),
      ("summary", r.summary.toJson),
      ("confidence_breakdown", r.breakdown.toJson),
      ("narrative", .string r.narrative),
      ("recommendations", .list? (r.recommendations?.map (·.map .string))),
      ("triaged_findings", .list? (r.records?.map (·.map (·.toJson)))) ]

/-! ## Consistency -/

inductive Contradiction where
  | notPerformed
  | recordCount (reviewed : Int64) (records : Nat)
  | summarySum (sum reviewed : Int64)
  | aboveCap (reviewed cap : Int64)
  | incomplete (index : Nat) (id : Bytes)
  | unknownId (index : Nat) (id : Bytes)
  deriving DecidableEq

def Contradiction.message : Contradiction → Bytes
  | notPerformed => "performed is false"
  | recordCount reviewed records =>
    "findings_reviewed " ++ Bytes.decimalInt64 reviewed ++ " != " ++ Bytes.decimal records ++
      " triaged findings"
  | summarySum sum reviewed =>
    "summary counts sum to " ++ Bytes.decimalInt64 sum ++ ", want " ++
      Bytes.decimalInt64 reviewed
  | aboveCap reviewed cap =>
    "findings_reviewed " ++ Bytes.decimalInt64 reviewed ++ " exceeds max " ++
      Bytes.decimalInt64 cap
  | incomplete index id =>
    "triaged finding " ++ Bytes.decimal index ++ " (" ++ id ++ ") has an incomplete decision"
  | unknownId index id =>
    "triaged finding " ++ Bytes.decimal index ++ " has unrecognized identifier " ++
      Text.quoted id

/-- Whether a decision is one of the known kinds and gives a reason. -/
def isComplete (d : Decision) : Bool :=
  d.classification.isValid && d.confidence.isValid && !d.rationale.isEmpty

/-- The first record, counted from `index`, that is incomplete or unknown. -/
def checkRecords : (index : Nat) → List TriageRecord → Except Contradiction Unit
  | _, [] => .ok ()
  | index, r :: records =>
    if !isComplete r.decision then .error (.incomplete index r.key.id)
    else if !Chain.isKnown r.key.id then .error (.unknownId index r.key.id)
    else checkRecords (index + 1) records

/-- Whether the parts of a report agree: the counts with each other and with
the records, and every record with the catalogue. -/
def check (r : Report) : Except Contradiction Unit :=
  let sum := r.summary.confirmed + r.summary.falsePositives + r.summary.needsReview
  if !r.performed then .error .notPerformed
  else if r.scope.reviewed != Int64.ofNat r.records.length then
    .error (.recordCount r.scope.reviewed r.records.length)
  else if sum != r.scope.reviewed then .error (.summarySum sum r.scope.reviewed)
  else if r.scope.maxReviewed < r.scope.reviewed then
    .error (.aboveCap r.scope.reviewed r.scope.maxReviewed)
  else checkRecords 0 r.records

end Report

end ScanTriage
