import ScanTriage.Fault
import ScanTriage.Json.Member
import ScanTriage.Json.Valid
import ScanTriage.Triage.Report

/-!
# Annotated reports

`inject` puts a triage report under its key into the text of a scan report.
`verify` compares an annotated text with the text it was made from.
-/

namespace ScanTriage

namespace Annotate

def key : Bytes := "ai_triage"

def inject (data : Bytes) (report : Report) : Except Json.NotAnObject Bytes :=
  Json.setMember key (report.toJson.write false) data

def injectFault (why : Json.NotAnObject) : Fault :=
  .labelled ("set " ++ key) (.plain why.message)

inductive Tampering where
  | notJson
  | keyMissing
  | notPerformed
  | recordCount (reviewed : Int64) (records : Nat)
  | summarySum (sum reviewed : Int64)
  | findingsChanged
  deriving DecidableEq

def Tampering.message : Tampering → Bytes
  | notJson => "not valid JSON"
  | keyMissing => key ++ " missing"
  | notPerformed => "performed is not true"
  | recordCount reviewed records =>
    "findings_reviewed " ++ Bytes.decimalInt64 reviewed ++ " != " ++ Bytes.decimal records ++
      " triaged findings"
  | summarySum sum reviewed =>
    "summary counts sum to " ++ Bytes.decimalInt64 sum ++ ", want " ++
      Bytes.decimalInt64 reviewed
  | findingsChanged => "findings array changed"

def rawFindings (data : Bytes) : Bytes := (Json.Glimpse.find "findings" data).raw

/-- Whether an annotated report is well formed, its triage report agrees with
itself, and its findings are those of `source`, byte for byte. -/
def verify (source annotated : Bytes) : Except Tampering Unit :=
  let triage := Json.Glimpse.find key annotated
  let reviewed := (Json.Glimpse.findWithin "scope" "findings_reviewed" triage.raw).toInt
  let records := (triage.get "triaged_findings").elements.length
  let summary := triage.get "summary"
  let sum := (summary.get "confirmed_issues").toInt + (summary.get "false_positives").toInt +
    (summary.get "needs_review").toInt
  if !Json.isValid annotated then .error .notJson
  else if !triage.isObject then .error .keyMissing
  else if !(triage.get "performed").toBool then .error .notPerformed
  else if Int64.ofNat records != reviewed then .error (.recordCount reviewed records)
  else if sum != reviewed then .error (.summarySum sum reviewed)
  else if rawFindings source != rawFindings annotated then .error .findingsChanged
  else .ok ()

end Annotate

end ScanTriage
