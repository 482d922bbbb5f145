import ScanTriage.Annotate.Annotate
import ScanTriage.History.Quality

/-!
# Summaries in words

The texts that a finished run and the statistics print.
-/

namespace ScanTriage

namespace Cli

/-- A number with its sign, also in front of zero. -/
def signed (n : Int64) : Bytes :=
  if n < 0 then Bytes.decimalInt64 n else Bytes.plus :: Bytes.decimalInt64 n

def comparison : Option HistoryRecord.Delta → Bytes
  | none => []
  | some d =>
    if d.isZero then "Since previous run: no change.\n"
    else
      "Since previous run: confirmed " ++ signed d.confirmed ++ ", false positives " ++
        signed d.falsePositives ++ ", needs review " ++ signed d.needsReview ++ "\n"

def breakdown (o : Annotate.Outcome) (delta? : Option HistoryRecord.Delta) : Bytes :=
  let n := Bytes.decimalInt64
  let r := o.report
  "Triaged " ++ n r.scope.reviewed ++ " of " ++ n o.totalFindings ++ " findings in " ++ o.path ++
    " (cap " ++ n r.scope.maxReviewed ++ ").\n" ++
    "  confirmed issues: " ++ n r.summary.confirmed ++ "\n" ++
    "  false positives:  " ++ n r.summary.falsePositives ++ "\n" ++
    "  needs review:     " ++ n r.summary.needsReview ++ "\n" ++
    "Overall confidence: " ++ r.summary.confidence.label ++ " (high " ++ n r.breakdown.high ++
    ", medium " ++ n r.breakdown.medium ++ ", low " ++ n r.breakdown.low ++ ")\n" ++
    comparison delta?

def percent (share : Binary64) : Bytes :=
  Decimal.oneDecimal (Binary64.mul (.ofInt 100) share) ++ "%"

def padded (width : Nat) (s : Bytes) : Bytes :=
  s ++ List.replicate (width - (Utf8.decode s).length) Bytes.space

def identifierLine (id : Bytes) (q : IdQuality) : Bytes :=
  let n := Bytes.decimalInt64
  padded 36 id ++ " reviewed=" ++ n q.reviewed ++ " confirmed=" ++ n q.confirmed ++ " fp=" ++
    n q.falsePositives ++ " review=" ++ n q.needsReview ++ " fp_rate=" ++
    percent q.falsePositiveRate ++ "\n"

def confidenceLine (q : Quality) (level : Confidence) : Bytes :=
  match q.confidenceLevels.lookup level.label with
  | some n =>
    if 0 < n then
      "runs with " ++ level.label ++ " confidence: " ++ Bytes.decimalInt64 n ++ "\n"
    else []
  | none => []

/-- The identifiers to list: all of them, unless `top` is positive. -/
def listed (top : Int64) (q : Quality) : List (Bytes × IdQuality) :=
  if 0 < top then q.ranking.take top.toInt.toNat else q.ranking

def statistics (top : Int64) (q : Quality) : Bytes :=
  let n := Bytes.decimalInt64
  let ids := listed top q
  if q.runs == 0 then
    "No triage history yet. Run 'wpcc-triage annotate <report.json>' first.\n"
  else
    "runs: " ++ n q.runs ++ " (" ++ Bytes.decimal q.reports.length ++ " reports)\n" ++
      "reviewed: " ++ n q.reviewed ++ " of " ++ n q.totalFindings ++ " findings (" ++
      percent q.coverageRate ++ ")\n" ++
      "confirmed: " ++ n q.confirmed ++ " (" ++ percent q.confirmedRate ++ ")\n" ++
      "false positives: " ++ n q.falsePositives ++ " (" ++ percent q.falsePositiveRate ++ ")\n" ++
      "needs review: " ++ n q.needsReview ++ " (" ++ percent q.needsReviewRate ++ ")\n" ++
      [Confidence.high, .medium, .low].flatMap (confidenceLine q) ++
      (if ids.isEmpty then [] else ("---\n" : Bytes)) ++
      ids.flatMap fun (id, s) => identifierLine id s

end Cli

end ScanTriage
