import ScanTriage.History.Record
import ScanTriage.Proofs.Annotate.Encoding
import ScanTriage.Proofs.Json.RoundTrip

/-!
# Decoding an encoded report

`Report.ofText?` reads a report the way a history line is read: strict on JSON
and on types, names in any letter case, a null leaves a value as it was. From
the encoding of a report it gives the report back, except for what was never
written and for stray bytes (`Report.ofText?_encoding`).
-/

namespace ScanTriage

open HistoryRecord (readText readInt readObject readSummary readBreakdown)

/-! ## The reader -/

/-- A truth value; a null leaves the value as it was. -/
def readFlag (old : Bool) : Json → Option Bool
  | .bool b => some b
  | .null => some old
  | _ => none

/-- A list of items; a null is a list that is not there. -/
def readList {α : Type} (item : Json → Option α) : Json → Option (Option (List α))
  | .array items => (items.mapM item).map some
  | .null => some none
  | _ => none

def FindingKey.read : FindingKey → Json → Option FindingKey :=
  readObject fun k name json =>
    if Text.isNamed "id" name then (readText k.id json).map fun t => { k with id := t }
    else if Text.isNamed "file" name then (readText k.file json).map fun t => { k with file := t }
    else if Text.isNamed "line" name then (readInt k.line json).map fun n => { k with line := n }
    else some k

def Scope.read : Scope → Json → Option Scope :=
  readObject fun s name json =>
    if Text.isNamed "max_findings_reviewed" name then
      (readInt s.maxReviewed json).map fun n => { s with maxReviewed := n }
    else if Text.isNamed "findings_reviewed" name then
      (readInt s.reviewed json).map fun n => { s with reviewed := n }
    else some s

def TriageRecord.blank : TriageRecord :=
  ⟨⟨[], [], 0⟩, ⟨⟨.ofLabel [], .ofLabel [], []⟩, []⟩, false⟩

/-- The parts of a decision stand beside the key. -/
def TriageRecord.ofJson? : Json → Option TriageRecord :=
  readObject (fun r name json =>
    if Text.isNamed "finding_key" name then (r.key.read json).map fun k => { r with key := k }
    else if Text.isNamed "classification" name then
      (readText r.decision.classification.label json).map fun t =>
        { r with decision := { r.decision with classification := .ofLabel t } }
    else if Text.isNamed "confidence" name then
      (readText r.decision.confidence.label json).map fun t =>
        { r with decision := { r.decision with confidence := .ofLabel t } }
    else if Text.isNamed "rationale" name then
      (readText r.decision.rationale json).map fun t =>
        { r with decision := { r.decision with rationale := t } }
    else if Text.isNamed "rule" name then
      (readText r.decision.rule json).map fun t =>
        { r with decision := { r.decision with rule := t } }
    else some r) .blank

namespace Report

def blank : Report :=
  ⟨false, [], [], [], [], {}, {}, {}, [], none, none⟩

def ofJson? : Json → Option Report :=
  readObject (fun r name json =>
    if Text.isNamed "performed" name then
      (readFlag r.performed json).map fun b => { r with performed := b }
    else if Text.isNamed "status" name then
      (readText r.status json).map fun t => { r with status := t }
    else if Text.isNamed "version" name then
      (readText r.version json).map fun t => { r with version := t }
    else if Text.isNamed "run_id" name then
      (readText r.runId json).map fun t => { r with runId := t }
    else if Text.isNamed "timestamp" name then
      (readText r.timestamp json).map fun t => { r with timestamp := t }
    else if Text.isNamed "scope" name then (r.scope.read json).map fun s => { r with scope := s }
    else if Text.isNamed "summary" name then
      (readSummary r.summary json).map fun s => { r with summary := s }
    else if Text.isNamed "confidence_breakdown" name then
      (readBreakdown r.breakdown json).map fun b => { r with breakdown := b }
    else if Text.isNamed "narrative" name then
      (readText r.narrative json).map fun t => { r with narrative := t }
    else if Text.isNamed "recommendations" name then
      (readList (readText []) json).map fun l => { r with recommendations? := l }
    else if Text.isNamed "triaged_findings" name then
      (readList TriageRecord.ofJson? json).map fun l => { r with records? := l }
    else some r) .blank

def ofText? (s : Bytes) : Option Report := Json.read? s >>= ofJson?

end Report

/-! ## What is left of a report -/

def Classification.scrubbed : Classification → Classification
  | other label _ => ofLabel (Utf8.scrub label)
  | known => known

def Confidence.scrubbed : Confidence → Confidence
  | other label _ => ofLabel (Utf8.scrub label)
  | known => known

def FindingKey.scrubbed (k : FindingKey) : FindingKey :=
  ⟨Utf8.scrub k.id, Utf8.scrub k.file, k.line⟩

/-- A record with its texts scrubbed and without its flag. -/
def TriageRecord.scrubbed (r : TriageRecord) : TriageRecord :=
  ⟨r.key.scrubbed, ⟨⟨r.decision.classification.scrubbed, r.decision.confidence.scrubbed,
    Utf8.scrub r.decision.rationale⟩, Utf8.scrub r.decision.rule⟩, false⟩

def Summary.scrubbed (s : Summary) : Summary := { s with confidence := s.confidence.scrubbed }

/-- A report with its texts scrubbed and without the flags of its records. -/
def Report.scrubbed (r : Report) : Report where
  performed := r.performed
  status := Utf8.scrub r.status
  version := Utf8.scrub r.version
  runId := Utf8.scrub r.runId
  timestamp := Utf8.scrub r.timestamp
  scope := r.scope
  summary := r.summary.scrubbed
  breakdown := r.breakdown
  narrative := Utf8.scrub r.narrative
  recommendations? := r.recommendations?.map (·.map Utf8.scrub)
  records? := r.records?.map (·.map (·.scrubbed))

theorem Classification.ofLabel_scrub (c : Classification) :
    ofLabel (Utf8.scrub c.label) = c.scrubbed := by
  cases c <;> rfl

theorem Confidence.ofLabel_scrub (c : Confidence) : ofLabel (Utf8.scrub c.label) = c.scrubbed := by
  cases c <;> rfl

/-! ## Reading an encoding back -/

theorem readInt_int (old n : Int64) : readInt old (Json.int n).scrubbed = some n := by
  rw [Json.int, Json.scrubbed, readInt, Integer.readDecimal_decimalInt64]

theorem readText_string (old s : Bytes) :
    readText old (Json.string s).scrubbed = some (Utf8.scrub s) := rfl

/-- A list is read back if its items are, and whether it is there. -/
theorem readList_list? {α β : Type} {item : Json → Option β} {toJson : α → Json} {back : α → β}
    (h : ∀ x, item (toJson x).scrubbed = some (back x)) (items? : Option (List α)) :
    readList item (Json.list? (items?.map (·.map toJson))).scrubbed =
      some (items?.map (·.map back)) := by
  cases items? with
  | none => rfl
  | some items =>
    have hmap : ((items.map toJson).map Json.scrubbed).mapM item = some (items.map back) := by
      induction items with
      | nil => rfl
      | cons x items ih =>
        rw [List.map_cons, List.map_cons, List.mapM_cons, h, ih]
        rfl
    simp only [Option.map_some, Json.list?, Json.scrubbed, Json.scrubbedItems_eq, readList, hmap]

-- The names of the members are closed, so that simp can decide which field takes each of them.

theorem FindingKey.read_toJson (old k : FindingKey) :
    old.read k.toJson.scrubbed = some k.scrubbed := by
  simp +decide [FindingKey.toJson, FindingKey.read, readObject, Json.scrubbed, Json.scrubbedMembers,
    readInt_int, readText, FindingKey.scrubbed]

theorem Scope.read_toJson (old s : Scope) : old.read s.toJson.scrubbed = some s := by
  simp +decide [Scope.toJson, Scope.read, readObject, Json.scrubbed, Json.scrubbedMembers,
    readInt_int]

theorem readSummary_toJson (old s : Summary) :
    readSummary old s.toJson.scrubbed = some s.scrubbed := by
  simp +decide [Summary.toJson, readSummary, readObject, Json.scrubbed, Json.scrubbedMembers,
    readInt_int, readText, Summary.scrubbed, Confidence.ofLabel_scrub]

theorem readBreakdown_toJson (old b : Breakdown) :
    readBreakdown old b.toJson.scrubbed = some b := by
  simp +decide [Breakdown.toJson, readBreakdown, readObject, Json.scrubbed, Json.scrubbedMembers,
    readInt_int]

theorem TriageRecord.ofJson?_toJson (r : TriageRecord) :
    ofJson? r.toJson.scrubbed = some r.scrubbed := by
  by_cases hrule : r.decision.rule = []
  · simp +decide [TriageRecord.toJson, Json.record, Decision.members, hrule, ofJson?, readObject,
      Json.scrubbed, Json.scrubbedMembers, FindingKey.read_toJson, readText, TriageRecord.scrubbed,
      Classification.ofLabel_scrub, Confidence.ofLabel_scrub, TriageRecord.blank]
  · simp +decide [TriageRecord.toJson, Json.record, Decision.members, hrule, ofJson?, readObject,
      Json.scrubbed, Json.scrubbedMembers, FindingKey.read_toJson, readText, TriageRecord.scrubbed,
      Classification.ofLabel_scrub, Confidence.ofLabel_scrub, TriageRecord.blank]

theorem Report.ofJson?_toJson (r : Report) : ofJson? r.toJson.scrubbed = some r.scrubbed := by
  have hrecommendations := readList_list? (readText_string []) r.recommendations?
  have hrecords := readList_list? TriageRecord.ofJson?_toJson r.records?
  simp +decide [Report.toJson, ofJson?, readObject, Json.scrubbed, Json.scrubbedMembers, readFlag,
    readText, Scope.read_toJson, readSummary_toJson, readBreakdown_toJson, hrecommendations,
    hrecords, Report.scrubbed]

/-- The encoding of a report is decoded to the report, up to its flags and its
stray bytes. -/
theorem Report.ofText?_encoding (r : Report) (html : Bool) :
    ofText? (r.toJson.write html) = some r.scrubbed := by
  rw [ofText?, Json.read?_write (r.fits_toJson 0) (by decide)]
  exact r.ofJson?_toJson

end ScanTriage
