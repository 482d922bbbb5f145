import ScanTriage.Log
import ScanTriage.Timestamp
import ScanTriage.Digest.Sha256
import ScanTriage.Digest.Uuid
import ScanTriage.Triage.Narrative

/-!
# The triage engine

Findings are triaged in their order until the cap of recognized findings is
reached. The engine takes them in windows that never exceed what is left of
the cap, so every recognized finding of a window counts; within a window the
classifications do not depend on each other and may be made in any order.
Positions and counts are 64-bit integers.
-/

namespace ScanTriage

inductive Event where
  | trace (step : TraceStep)
  | log (entry : LogEntry)
  deriving DecidableEq

structure Engine where
  maxFindings : Int64
  workers : Int64 := 0
  /-- The moment of the run in seconds since 1970. -/
  now : Int := 0
  /-- A given run identifier instead of the derived one. -/
  runId? : Option Bytes := none
  /-- Whether the run was called off before it started. -/
  cancelled : Bool := false

namespace Engine

structure State where
  position : Int64 := 0
  rest : List Finding
  /-- The records so far, the latest first. -/
  records : List TriageRecord := []
  tally : Tally := {}
  skipped : Int64 := 0

structure Outcome where
  finding : Finding
  decision? : Option Decision

def State.add (s : State) (o : Outcome) : State :=
  match o.decision? with
  | none => { s with skipped := s.skipped + 1 }
  | some d =>
    { s with
      records := ⟨o.finding.key, d, (Evidence.of o.finding).thirdParty⟩ :: s.records
      tally := s.tally.add d.toRuling }

/-- The number of findings that may be reviewed. -/
def limit (engine : Engine) : Int64 := if engine.maxFindings < 0 then 0 else engine.maxFindings

/-- Whether there is another window: findings are left, and so is some of the
cap. -/
def State.goesOn (limit total : Int64) (s : State) : Bool :=
  s.position < total && s.tally.reviewed < limit

/-- Where the window that starts at `position` ends: at most the rest of the
cap further, and not behind the last finding. -/
def windowEnd (limit total : Int64) (s : State) : Int64 :=
  let last := s.position + (limit - s.tally.reviewed)
  if total < last then total else last

/-- An order of work for the window at each position: a permutation of the
findings of the window, each of which comes with its place. -/
abbrev Schedule := (position : Int64) → List (Nat × Finding) → List (Nat × Finding)

/-- The outcome of place `i` among outcomes in the order they were made. -/
def outcomeAt (done : List (Nat × Outcome)) (i : Nat) (f : Finding) : Outcome :=
  match done.find? (·.1 == i) with
  | some (_, outcome) => outcome
  | none => ⟨f, none⟩

/-- Whether a window is worked through in its own order: there is one worker
or one finding. -/
def isSequential (workers : Int64) (window : List Finding) : Bool :=
  workers ≤ 1 || window.length == 1

/-- Classifies a finding once, for the outcome and for the trace. A tracer writes
what `Finding.classifyTraced` gives with it. -/
def classifyOne (f : Finding) : Outcome × Event :=
  let (decision?, lines) := f.trial
  (⟨f, decision?⟩, .trace (.block lines))

/-- Classifies a window in the given order. The outcomes stand in the order of
the window, the trace in the order of the work. -/
def classifyWindow (workers : Int64) (order : List (Nat × Finding) → List (Nat × Finding))
    (window : List Finding) : List Outcome × List Event :=
  let places := window.mapIdx fun i f => (i, f)
  let work := if isSequential workers window then places else order places
  let done := work.map fun (i, f) => (i, classifyOne f)
  let outcomes := done.map fun d => (d.1, d.2.1)
  (places.map fun (i, f) => outcomeAt outcomes i f, done.map (·.2.2))

def advance (schedule : Schedule) (engine : Engine) (total : Int64) (s : State) :
    State × List Event :=
  let last := windowEnd engine.limit total s
  let size := (last - s.position).toNatClampNeg
  let (outcomes, shown) :=
    classifyWindow engine.workers (schedule s.position) (s.rest.take size)
  let s := outcomes.foldl State.add s
  ({ s with position := last, rest := s.rest.drop size }, shown)

/-- A run that was called off shows what it had done. -/
structure Cancelled where
  events : List Event

def windows (schedule : Schedule) (engine : Engine) (total : Int64) :
    (fuel : Nat) → State → List Event → Except Cancelled (State × List Event)
  | 0, s, events => .ok (s, events)
  | fuel + 1, s, events =>
    if s.goesOn engine.limit total then
      if engine.cancelled then .error ⟨events⟩
      else
        let (s, shown) := advance schedule engine total s
        windows schedule engine total fuel s (events ++ shown)
    else .ok (s, events)

def runNamespace : Bytes := Uuid.ofName Uuid.urlNamespace "https://wpcc-triage/run"

/-- What a run identifier is derived from: all findings, the cap and the
timestamp. -/
def runName (findings? : Option (List Finding)) (limit : Int64) (timestamp : Bytes) : Bytes :=
  (Finding.listToJson findings?).write true ++ "\n" ++ Bytes.decimalInt64 limit ++ "\n" ++ timestamp

def derivedRunId (findings? : Option (List Finding)) (limit : Int64) (timestamp : Bytes) : Bytes :=
  Uuid.render (Uuid.ofName runNamespace (Sha256.hash (runName findings? limit timestamp)))

def report (engine : Engine) (findings? : Option (List Finding)) (s : State) : Report :=
  let records := s.records.reverse
  let timestamp := Timestamp.render engine.now
  { performed := true
    status := "complete"
    version := Report.formatVersion
    runId := engine.runId?.getD (derivedRunId findings? engine.limit timestamp)
    timestamp := timestamp
    scope := ⟨engine.limit, s.tally.reviewed⟩
    summary := s.tally.summary
    breakdown := s.tally.breakdown
    narrative := Narrative.of records
    recommendations? := some (Narrative.recommendations records)
    records? := some records }

def completion (total : Int64) (s : State) : LogEntry :=
  { level := .debug
    message := "triage complete"
    fields :=
      [ ("total", .int total),
        ("reviewed", .int s.tally.reviewed),
        ("unrecognized", .int s.skipped),
        ("not_reached", .int (total - s.position)) ] }

def closing (limit : Int64) (s : State) : Bytes :=
  "reviewed=" ++ Bytes.decimalInt64 s.tally.reviewed ++ " unrecognized=" ++
    Bytes.decimalInt64 s.skipped ++ " cap=" ++ Bytes.decimalInt64 limit ++ "\n"

/-- Triages findings, working in the order of `schedule`. -/
def runWith (schedule : Schedule) (engine : Engine) (findings? : Option (List Finding)) :
    Except Cancelled (Report × List Event) := do
  let findings := findings?.getD []
  let total := Int64.ofNat findings.length
  let (s, events) ← windows schedule engine total (findings.length + 1) { rest := findings }
    [.trace (.section "Classify")]
  .ok (engine.report findings? s,
    events ++ [.log (completion total s), .trace (.print (closing engine.limit s))])

/-- Triages findings, one after the other. -/
def run (engine : Engine) (findings? : Option (List Finding)) :
    Except Cancelled (Report × List Event) :=
  runWith (fun _ => id) engine findings?

end Engine

end ScanTriage
