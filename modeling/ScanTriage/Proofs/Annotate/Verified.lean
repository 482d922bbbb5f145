import ScanTriage.Proofs.Annotate.Injected

/-!
# Verifying an annotated report

`verify` asks for six things (`verify_eq_ok_iff`). A report that passes its own
check brings the first five with it through its encoding, and setting a member
leaves the findings alone, so what `inject` gives always passes
(`verify_inject`).
-/

namespace ScanTriage

namespace Annotate

open Json (Glimpse ObjectText)

variable {data out source annotated : Bytes} {r : Report}

/-- What `verify` asks of an annotated report. -/
structure Intact (source annotated : Bytes) : Prop where
  valid : Json.isValid annotated = true
  isObject : (Glimpse.find key annotated).isObject = true
  performed : ((Glimpse.find key annotated).get "performed").toBool = true
  records : Int64.ofNat ((Glimpse.find key annotated).get "triaged_findings").elements.length =
    (Glimpse.findWithin "scope" "findings_reviewed" (Glimpse.find key annotated).raw).toInt
  counts : (((Glimpse.find key annotated).get "summary").get "confirmed_issues").toInt +
      (((Glimpse.find key annotated).get "summary").get "false_positives").toInt +
      (((Glimpse.find key annotated).get "summary").get "needs_review").toInt =
    (Glimpse.findWithin "scope" "findings_reviewed" (Glimpse.find key annotated).raw).toInt
  findings : rawFindings source = rawFindings annotated

theorem ite_error_eq_ok {ε α : Type} {p : Prop} [Decidable p] {e : ε} {x : Except ε α} {a : α} :
    (if p then .error e else x) = .ok a ↔ ¬ p ∧ x = .ok a := by
  by_cases hp : p <;> simp [hp]

theorem verify_eq_ok_iff : verify source annotated = .ok () ↔ Intact source annotated := by
  simp only [verify, ite_error_eq_ok, Bool.not_eq_true', Bool.not_eq_false, bne_iff_ne, ne_eq,
    not_not, and_true]
  constructor
  · rintro ⟨hvalid, hobject, hperformed, hrecords, hcounts, hfindings⟩
    exact ⟨hvalid, hobject, hperformed, hrecords, hcounts, hfindings⟩
  · rintro ⟨hvalid, hobject, hperformed, hrecords, hcounts, hfindings⟩
    exact ⟨hvalid, hobject, hperformed, hrecords, hcounts, hfindings⟩

/-- What `check` asks of a report that `verify` asks again. -/
theorem of_check (h : r.check = .ok ()) : r.performed = true ∧
    r.scope.reviewed = Int64.ofNat r.records.length ∧
    r.summary.confirmed + r.summary.falsePositives + r.summary.needsReview = r.scope.reviewed := by
  simp only [Report.check, ite_error_eq_ok, Bool.not_eq_true', Bool.not_eq_false, bne_iff_ne, ne_eq,
    not_not] at h
  obtain ⟨hperformed, hrecords, hcounts, -⟩ := h
  exact ⟨hperformed, hrecords, hcounts⟩

/-- The records of a report and its counts decide, whatever its cap is. -/
theorem intact_inject (hperformed : r.performed = true)
    (hrecords : r.scope.reviewed = Int64.ofNat r.records.length)
    (hcounts : r.summary.confirmed + r.summary.falsePositives + r.summary.needsReview =
      r.scope.reviewed) (hdata : Json.isValid data = true) (h : inject data r = .ok out) :
    Intact data out := by
  obtain ⟨ms, d, rfl, hview, hfind⟩ := exists_objectText_inject hdata h
  have hkey := find_key hview
  have hmember : ∀ name, (Glimpse.find key d.text).get name = Glimpse.find name (encoding r) := by
    rw [hkey]
    exact fun name => rfl
  have hreviewed : (Glimpse.findWithin "scope" "findings_reviewed"
      (Glimpse.find key d.text).raw).toInt = r.scope.reviewed := by
    rw [hkey, encoding, r.reviewed_encoding]
  constructor
  · exact d.isValid_text
  · rw [hkey]
    rfl
  · rw [hmember, encoding, r.performed_encoding, hperformed]
  · rw [hreviewed, hmember, encoding, r.length_records_encoding, hrecords]
  · rw [hreviewed, hmember, encoding, r.count_encoding rfl, r.count_encoding rfl,
      r.count_encoding rfl, hcounts]
  · rw [rawFindings, rawFindings, hfind, find_other (by decide) hview]

/-- Annotating a valid scan report with a triage report that agrees with itself
gives a text that passes the verification. -/
theorem verify_inject (hcheck : r.check = .ok ()) (hdata : Json.isValid data = true)
    (h : inject data r = .ok out) : verify data out = .ok () ∧ Intact data out := by
  obtain ⟨hperformed, hrecords, hcounts⟩ := of_check hcheck
  have hintact := intact_inject hperformed hrecords hcounts hdata h
  exact ⟨verify_eq_ok_iff.mpr hintact, hintact⟩

theorem verify_inject_respelled :
    ∃ out, inject respelled oneFinding = .ok out ∧ verify respelled out = .ok () := by
  obtain ⟨out, hout⟩ : ∃ out, inject respelled oneFinding = .ok out := ⟨_, rfl⟩
  exact ⟨out, hout, (verify_inject (by decide) (by decide) hout).1⟩

end Annotate

end ScanTriage
