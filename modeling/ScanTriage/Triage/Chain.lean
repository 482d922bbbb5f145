import ScanTriage.Evidence
import ScanTriage.Triage.Decision

/-!
# Rule chains

The rules for one finding identifier, in the order in which they are tried.
The first rule that applies decides; if none does, the fallback decides.
-/

namespace ScanTriage

structure Rule where
  name : Bytes
  applies : Evidence → Bool
  rule : Evidence → Ruling

/-- The decision of a rule, which carries its name. -/
def Rule.decide (r : Rule) (e : Evidence) : Decision := { r.rule e with rule := r.name }

/-- A rule that rules the same on all evidence it applies to. -/
def Rule.fixed (name : Bytes) (applies : Evidence → Bool) (classification : Classification)
    (confidence : Confidence) (rationale : Bytes) : Rule :=
  ⟨name, applies, fun _ => ⟨classification, confidence, rationale⟩⟩

/-- A fallback that rules the same on all evidence. -/
def Rule.otherwise (name : Bytes) (classification : Classification) (confidence : Confidence)
    (rationale : Bytes) : Rule :=
  .fixed name (fun _ => true) classification confidence rationale

structure Chain where
  id : Bytes
  /-- What the findings with this identifier are about. -/
  category : Bytes
  rules : List Rule
  fallback : Rule

namespace Chain

def deciding (c : Chain) (e : Evidence) : Rule :=
  (c.rules.find? (·.applies e)).getD c.fallback

def decide (c : Chain) (e : Evidence) : Decision := (c.deciding e).decide e

/-- Tries rules in their order: the decision, and one line for each rule that
was tried. -/
def evaluateOf (fallback : Rule) (e : Evidence) : List Rule → Decision × List Bytes
  | [] => (fallback.decide e, ["  " ++ fallback.name ++ ": DEFAULT"])
  | r :: rules =>
    if r.applies e then (r.decide e, ["  " ++ r.name ++ ": MATCH"])
    else
      let (d, attempts) := evaluateOf fallback e rules
      (d, ("  " ++ r.name ++ ": no") :: attempts)

/-- The decision with an account of how it was reached. -/
def evaluate (c : Chain) (e : Evidence) : Decision × List Bytes :=
  evaluateOf c.fallback e c.rules

end Chain

end ScanTriage
