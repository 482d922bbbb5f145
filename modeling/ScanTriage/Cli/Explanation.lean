import ScanTriage.Json.Valid
import ScanTriage.Triage.Engine
import ScanTriage.Yaml.Document

/-!
# Explanations and the rule table

What is shown of the classification of a finding, and of the rules that
classify.
-/

namespace ScanTriage

structure Explanation where
  key : FindingKey
  category? : Option Bytes
  thirdParty : Bool
  guarded : Flag
  sanitized : Flag
  decision? : Option Decision
  deriving DecidableEq

namespace Explanation

def of (f : Finding) : Explanation where
  key := f.key
  category? := (Chain.ofId? f.id).map (·.category)
  thirdParty := (Evidence.of f).thirdParty
  guarded := f.guarded
  sanitized := f.sanitized
  decision? := f.classify?

/-- Category and decision are left out for an identifier without a chain. -/
def toJson (e : Explanation) : Json :=
  .record
    [ some ("finding", e.key.toJson),
      some ("recognized", .bool e.decision?.isSome),
      e.category?.map fun category => ("category", .string category),
      some ("third_party", .bool e.thirdParty),
      some ("guarded", e.guarded.toJson),
      some ("sanitized", e.sanitized.toJson),
      e.decision?.map fun d => ("decision", .record d.members) ]

def toYaml (e : Explanation) : Yaml :=
  .record
    [ some ("finding", .mapping
        [("id", .text e.key.id), ("file", .text e.key.file), ("line", .int e.key.line)]),
      some ("recognized", .bool e.decision?.isSome),
      e.category?.map fun category => ("category", .text category),
      some ("third_party", .bool e.thirdParty),
      some ("guarded", .text e.guarded.label),
      some ("sanitized", .text e.sanitized.label),
      e.decision?.map fun d =>
        ("decision", .mapping
          [ ("classification", .text d.classification.label),
            ("confidence", .text d.confidence.label),
            ("rationale", .text d.rationale),
            ("rule", .text d.rule) ]) ]

end Explanation

/-- The findings of an input: those of a report, or one finding on its own. -/
inductive ExplainInput where
  | report (findings : List Finding)
  | single (finding : Finding)
  deriving DecidableEq

namespace ExplainInput

def ofText? (s : Bytes) : Option ExplainInput :=
  if !Json.isValid s then none
  else
    match Finding.listOfReport? s with
    | some findings => some (report findings)
    | none => some (single (.ofText s))

def findings : ExplainInput → List Finding
  | report findings => findings
  | single finding => [finding]

def renderJson (input : ExplainInput) : Bytes :=
  let value : Json :=
    match input with
    | report findings => .array (findings.map fun f => (Explanation.of f).toJson)
    | single finding => (Explanation.of finding).toJson
  value.writeIndented false 0 ++ [Bytes.newline]

def renderYaml : ExplainInput → Bytes
  | report findings => (Yaml.sequence (findings.map fun f => (Explanation.of f).toYaml)).render
  | single finding => (Explanation.of finding).toYaml.render

def trace (input : ExplainInput) : Bytes :=
  input.findings.flatMap fun f => (f.classifyTraced .writing).2

end ExplainInput

def Chain.toYaml (c : Chain) : Yaml :=
  .mapping
    [ ("id", .text c.id),
      ("category", .text c.category),
      ("rules", .sequence (c.rules.map fun r => .text r.name)),
      ("default", .text c.fallback.name) ]

def Hook.toYaml (h : Hook) : Yaml := .mapping [("hook", .text h.name), ("kind", .text h.kind.label)]

/-- Every chain with its rules in their order, and the hooks in the order in
which they are matched. -/
def ruleTable : Yaml :=
  .mapping
    [ ("chains", .sequence (Chain.all.map (·.toYaml))),
      ("cache_priming_hooks", .sequence (Hook.all.map (·.toYaml))) ]

end ScanTriage
