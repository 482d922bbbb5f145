import ScanTriage.Triage.Report

/-!
# Narrative and recommendations

The prose of a report. It speaks only of identifiers that were seen, in the
order of the catalogue, whatever the order of the records.
-/

namespace ScanTriage

namespace Narrative

def intro : Bytes :=
  "This triage pass reviews a subset of findings to separate likely true issues from policy/heuristic noise."

/-- The topics with at least one record. -/
def observed (records : List TriageRecord) : List Topic :=
  Topic.all.filter fun topic => records.any (·.key.id == topic.chain.id)

/-- How many records of a chain one of its rules decided. -/
def decidedBy (records : List TriageRecord) (id rule : Bytes) : Nat :=
  records.countP fun r => r.key.id == id && r.decision.rule == rule

/-- The sentence on a rule, if it has one and decided anything. -/
def note? (records : List TriageRecord) (topic : Topic) (rule : Rule) : Option Bytes :=
  let count := decidedBy records topic.chain.id rule.name
  if count == 0 then none
  else (topic.notes.find? (·.rule == rule.name)).map fun n => Bytes.decimal count ++ n.sentence

def paragraph (records : List TriageRecord) (topic : Topic) : Bytes :=
  Bytes.join " " (topic.narrative :: topic.chain.rules.filterMap (note? records topic))

def counts (t : Tally) : Bytes :=
  "Of " ++ Bytes.decimalInt64 t.reviewed ++ " reviewed findings, " ++
    Bytes.decimalInt64 t.confirmed ++ " are confirmed issues, " ++
    Bytes.decimalInt64 t.falsePositives ++ " are likely false positives and " ++
    Bytes.decimalInt64 t.needsReview ++ " need manual review."

def thirdParty (records : List TriageRecord) : List Bytes :=
  let count := records.countP (·.thirdParty)
  if count == 0 then []
  else
    [Bytes.decimal count ++
      " of the reviewed findings are in bundled/minified or third-party code; these are marked Needs Review unless a clear mitigation is visible."]

/-- The paragraphs of a narrative, with an empty line between them. -/
def of (records : List TriageRecord) : Bytes :=
  if records.isEmpty then intro ++ " No recognized findings were reviewed."
  else
    Bytes.join "\n\n"
      (intro :: counts (.ofRecords records) :: (observed records).map (paragraph records) ++
        thirdParty records)

def noRecommendation : Bytes :=
  "Review the triaged findings individually; none of them fall into a category with a specific recommendation."

/-- One recommendation for each topic seen, and a general one if there is none. -/
def recommendations (records : List TriageRecord) : List Bytes :=
  match (observed records).map (·.recommendation) with
  | [] => [noRecommendation]
  | list => list

end Narrative

end ScanTriage
