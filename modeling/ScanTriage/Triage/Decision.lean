import ScanTriage.Json.Value

/-!
# Decisions

A decision is a classification, a confidence, a rationale and the name of the
rule that made it. Decisions made here use the three classifications and the
three confidences; reports from elsewhere may carry other words, which are
kept as they are. Another word is none of the three, so every word stands for
one value.
-/

namespace ScanTriage

inductive Classification where
  | confirmed
  | falsePositive
  | needsReview
  | other (label : Bytes)
    (unknown : label ≠ "Confirmed" ∧ label ≠ "False Positive" ∧ label ≠ "Needs Review")
  deriving DecidableEq

namespace Classification

def label : Classification → Bytes
  | confirmed => "Confirmed"
  | falsePositive => "False Positive"
  | needsReview => "Needs Review"
  | other label _ => label

def ofLabel (label : Bytes) : Classification :=
  if h : label = "Confirmed" then confirmed
  else if h' : label = "False Positive" then falsePositive
  else if h'' : label = "Needs Review" then needsReview
  else other label ⟨h, h', h''⟩

def isValid : Classification → Bool
  | other .. => false
  | _ => true

end Classification

inductive Confidence where
  | high
  | medium
  | low
  | other (label : Bytes) (unknown : label ≠ "high" ∧ label ≠ "medium" ∧ label ≠ "low")
  deriving DecidableEq

namespace Confidence

def label : Confidence → Bytes
  | high => "high"
  | medium => "medium"
  | low => "low"
  | other label _ => label

def ofLabel (label : Bytes) : Confidence :=
  if h : label = "high" then high
  else if h' : label = "medium" then medium
  else if h'' : label = "low" then low
  else other label ⟨h, h', h''⟩

/-- The empty label names no confidence. -/
theorem nil_unknown : ([] : Bytes) ≠ "high" ∧ ([] : Bytes) ≠ "medium" ∧ ([] : Bytes) ≠ "low" := by
  decide

/-- High above medium above low above anything else. -/
def rank : Confidence → Nat
  | high => 3
  | medium => 2
  | low => 1
  | other .. => 0

def isValid (c : Confidence) : Bool := 0 < c.rank

end Confidence

structure Ruling where
  classification : Classification
  confidence : Confidence
  rationale : Bytes
  deriving DecidableEq

/-- A ruling and the name of the rule it comes from. -/
structure Decision extends Ruling where
  rule : Bytes
  deriving DecidableEq

/-- The members of a decision; the rule is left out when it has no name. -/
def Decision.members (d : Decision) : List (Option (Bytes × Json)) :=
  [ some ("classification", .string d.classification.label),
    some ("confidence", .string d.confidence.label),
    some ("rationale", .string d.rationale),
    if d.rule.isEmpty then none else some ("rule", .string d.rule) ]

end ScanTriage
