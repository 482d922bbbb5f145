import ScanTriage.Number.Binary64
import ScanTriage.Triage.Decision

/-!
# Tallies

How many decisions fell into each classification and confidence, and the
overall confidence that their shares add up to. Counts are 64-bit integers.
-/

namespace ScanTriage

structure Summary where
  confirmed : Int64 := 0
  falsePositives : Int64 := 0
  needsReview : Int64 := 0
  confidence : Confidence := .other [] Confidence.nil_unknown
  deriving DecidableEq

structure Breakdown where
  high : Int64 := 0
  medium : Int64 := 0
  low : Int64 := 0
  deriving DecidableEq

structure Tally where
  reviewed : Int64 := 0
  confirmed : Int64 := 0
  falsePositives : Int64 := 0
  needsReview : Int64 := 0
  high : Int64 := 0
  medium : Int64 := 0
  low : Int64 := 0
  deriving DecidableEq

/-- The quotient of two counts; zero over nothing. -/
def share (part whole : Int64) : Binary64 :=
  if whole == 0 then .finite false 0 0
  else (Binary64.ofInt part.toInt).div (.ofInt whole.toInt)

namespace Tally

def addClassification (t : Tally) : Classification → Tally
  | .confirmed => { t with confirmed := t.confirmed + 1 }
  | .falsePositive => { t with falsePositives := t.falsePositives + 1 }
  | .needsReview => { t with needsReview := t.needsReview + 1 }
  | .other .. => t

def addConfidence (t : Tally) : Confidence → Tally
  | .high => { t with high := t.high + 1 }
  | .medium => { t with medium := t.medium + 1 }
  | .low => { t with low := t.low + 1 }
  | .other .. => t

def add (t : Tally) (d : Ruling) : Tally :=
  ({ t with reviewed := t.reviewed + 1 }.addClassification d.classification).addConfidence
    d.confidence

/-- Six tenths of the decisions must be sure for the whole to be sure. -/
def highShareMin : Binary64 := .ofRatio false 6 10

/-- At most so many may be unsure for the whole to be sure. -/
def lowShareMax : Binary64 := .ofRatio false 15 100

/-- So many unsure ones make the whole unsure. -/
def lowShareMin : Binary64 := .ofRatio false 4 10

/-- High if most decisions are high and few are low, low if many are low,
and medium else, also if there are none. -/
def overall (t : Tally) : Confidence :=
  if t.reviewed == 0 then .medium
  else
    let high := share t.high t.reviewed
    let low := share t.low t.reviewed
    if highShareMin.le high && low.le lowShareMax then .high
    else if lowShareMin.le low then .low
    else .medium

def summary (t : Tally) : Summary :=
  ⟨t.confirmed, t.falsePositives, t.needsReview, t.overall⟩

def breakdown (t : Tally) : Breakdown := ⟨t.high, t.medium, t.low⟩

end Tally

def Summary.toJson (s : Summary) : Json :=
  .object
    [ ("confirmed_issues", .int s.confirmed),
      ("false_positives", .int s.falsePositives),
      ("needs_review", .int s.needsReview),
      ("confidence_level", .string s.confidence.label) ]

def Breakdown.toJson (b : Breakdown) : Json :=
  .object [("high", .int b.high), ("medium", .int b.medium), ("low", .int b.low)]

end ScanTriage
