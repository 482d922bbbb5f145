import ScanTriage.Number.Decimal
import ScanTriage.History.Record

/-!
# Quality over the history

Sums over all recorded runs and what share of the findings each verdict has.
The sums wrap at 64 bits, so their order does not matter.
-/

namespace ScanTriage

structure IdQuality where
  reviewed : Int64 := 0
  confirmed : Int64 := 0
  falsePositives : Int64 := 0
  needsReview : Int64 := 0
  deriving DecidableEq

def IdQuality.add (q : IdQuality) (c : IdCounts) : IdQuality :=
  ⟨q.reviewed + c.total, q.confirmed + c.confirmed, q.falsePositives + c.falsePositives,
    q.needsReview + c.needsReview⟩

def IdQuality.falsePositiveRate (q : IdQuality) : Binary64 := share q.falsePositives q.reviewed

structure Quality where
  runs : Int64 := 0
  /-- The reports seen, each once. -/
  reports : List Bytes := []
  totalFindings : Int64 := 0
  reviewed : Int64 := 0
  confirmed : Int64 := 0
  falsePositives : Int64 := 0
  needsReview : Int64 := 0
  /-- The number of runs for each overall confidence. -/
  confidenceLevels : SortedTable Int64 := []
  byId : SortedTable IdQuality := []
  deriving DecidableEq

namespace Quality

def add (q : Quality) (r : HistoryRecord) : Quality :=
  let level := r.summary.confidence.label
  { runs := q.runs + 1
    reports := if q.reports.contains r.report then q.reports else r.report :: q.reports
    totalFindings := q.totalFindings + r.totalFindings
    reviewed := q.reviewed + r.reviewed
    confirmed := q.confirmed + r.summary.confirmed
    falsePositives := q.falsePositives + r.summary.falsePositives
    needsReview := q.needsReview + r.summary.needsReview
    confidenceLevels :=
      if level.isEmpty then q.confidenceLevels
      else SortedTable.update level 0 (· + 1) q.confidenceLevels
    byId := r.byId.foldl (fun table (id, counts) =>
      SortedTable.update id {} (·.add counts) table) q.byId }

def ofRecords (records : List HistoryRecord) : Quality := records.foldl add {}

def falsePositiveRate (q : Quality) : Binary64 := share q.falsePositives q.reviewed

def confirmedRate (q : Quality) : Binary64 := share q.confirmed q.reviewed

def needsReviewRate (q : Quality) : Binary64 := share q.needsReview q.reviewed

/-- The share of the findings that was reviewed. -/
def coverageRate (q : Quality) : Binary64 := share q.reviewed q.totalFindings

/-- The identifiers, the most reviewed first and equals by name. -/
def ranking (q : Quality) : List (Bytes × IdQuality) :=
  q.byId.mergeSort fun a b => b.2.reviewed ≤ a.2.reviewed

def rate (x : Binary64) : Json := .number (Decimal.compact x)

def toJson (q : Quality) : Json :=
  .object
    [ ("runs", .int q.runs),
      ("reports", .nat q.reports.length),
      ("total_findings", .int q.totalFindings),
      ("reviewed", .int q.reviewed),
      ("confirmed", .int q.confirmed),
      ("false_positives", .int q.falsePositives),
      ("needs_review", .int q.needsReview),
      ("false_positive_rate", rate q.falsePositiveRate),
      ("confirmed_rate", rate q.confirmedRate),
      ("needs_review_rate", rate q.needsReviewRate),
      ("coverage_rate", rate q.coverageRate),
      ("confidence_levels", .object (q.confidenceLevels.map fun (level, n) => (level, .int n))),
      ("by_id", .object (q.byId.map fun (id, s) =>
        (id, .object
          [ ("reviewed", .int s.reviewed),
            ("confirmed", .int s.confirmed),
            ("false_positives", .int s.falsePositives),
            ("needs_review", .int s.needsReview),
            ("false_positive_rate", rate s.falsePositiveRate) ]))) ]

end Quality

end ScanTriage
