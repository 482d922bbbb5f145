import ScanTriage.Proofs.Json.Written
import ScanTriage.Proofs.Number.Whole
import ScanTriage.Triage.Report

/-!
# Encoded reports

The encoding of a triage report is the text of one value, whatever bytes its
texts hold (`Report.fits_toJson`), and the tolerant reader takes from it what
the report says (`Report.reviewed_encoding`, `Report.length_records_encoding`).
-/

namespace ScanTriage

open Json (Fits Glimpse)

variable (depth : Nat) {html : Bool}

/-! ## Encodings are written values -/

theorem FindingKey.fits_toJson (k : FindingKey) : Fits (depth + 1) k.toJson := by
  refine .object ?_
  simp only [List.forall_mem_cons]
  exact ⟨.string _, .string _, .int _, List.forall_mem_nil _⟩

theorem Scope.fits_toJson (s : Scope) : Fits (depth + 1) s.toJson := by
  refine .object ?_
  simp only [List.forall_mem_cons]
  exact ⟨.int _, .int _, List.forall_mem_nil _⟩

theorem Summary.fits_toJson (s : Summary) : Fits (depth + 1) s.toJson := by
  refine .object ?_
  simp only [List.forall_mem_cons]
  exact ⟨.int _, .int _, .int _, .string _, List.forall_mem_nil _⟩

theorem Breakdown.fits_toJson (b : Breakdown) : Fits (depth + 1) b.toJson := by
  refine .object ?_
  simp only [List.forall_mem_cons]
  exact ⟨.int _, .int _, .int _, List.forall_mem_nil _⟩

theorem TriageRecord.fits_toJson (r : TriageRecord) : Fits (depth + 2) r.toJson := by
  refine .object fun m hm => ?_
  obtain ⟨_, hm, rfl⟩ := List.mem_filterMap.mp hm
  simp only [Decision.members, List.mem_cons, List.not_mem_nil, or_false, Option.some.injEq] at hm
  rcases hm with rfl | rfl | rfl | rfl | hm
  · exact r.key.fits_toJson depth
  · exact .string _
  · exact .string _
  · exact .string _
  · split at hm
    · cases hm
    · cases hm
      exact .string _

theorem fits_list? {depth : Nat} {items? : Option (List Json)}
    (h : ∀ items ∈ items?, ∀ item ∈ items, Fits depth item) : Fits (depth + 1) (.list? items?) := by
  cases items? with
  | none => exact .null
  | some items => exact .array (h items rfl)

theorem Report.fits_toJson (r : Report) : Fits (depth + 4) r.toJson := by
  refine .object ?_
  simp only [List.forall_mem_cons]
  refine ⟨.bool _, .string _, .string _, .string _, .string _, r.scope.fits_toJson _,
    r.summary.fits_toJson _, r.breakdown.fits_toJson _, .string _, fits_list? ?_, fits_list? ?_,
    List.forall_mem_nil _⟩
  · intro items hitems item hitem
    obtain ⟨texts, -, rfl⟩ := Option.map_eq_some_iff.mp hitems
    obtain ⟨text, -, rfl⟩ := List.mem_map.mp hitem
    exact .string text
  · intro items hitems item hitem
    obtain ⟨records, -, rfl⟩ := Option.map_eq_some_iff.mp hitems
    obtain ⟨record, -, rfl⟩ := List.mem_map.mp hitem
    exact record.fits_toJson depth

/-! ## What the tolerant reader takes from an encoding -/

namespace Report

theorem find_encoding (r : Report) (name : Bytes) :
    Glimpse.find name (r.toJson.write html) =
      (r.toJson.member? name).elim .missing fun value => .ofText (value.write html) :=
  Json.find_write html (r.fits_toJson 0) rfl name

theorem performed_encoding (r : Report) :
    (Glimpse.find "performed" (r.toJson.write html)).toBool = r.performed := by
  have hmember : r.toJson.member? "performed" = some (.bool r.performed) := rfl
  rw [find_encoding, hmember]
  cases r.performed <;> rfl

theorem toInt_write_int (n : Int64) : (Glimpse.ofText ((Json.int n).write html)).toInt = n := by
  change (Glimpse.ofText (Bytes.decimalInt64 n)).toInt = n
  rw [Glimpse.ofText_decimalInt64]
  exact Glimpse.numberToInt_decimalInt64 n

theorem reviewed_encoding (r : Report) :
    (Glimpse.findWithin "scope" "findings_reviewed" (r.toJson.write html)).toInt =
      r.scope.reviewed := by
  have hwithin : Glimpse.findWithin "scope" "findings_reviewed" (r.toJson.write html) =
      .ofText ((Json.int r.scope.reviewed).write html) :=
    Json.findWithin_write html (r.fits_toJson 0) rfl rfl (r.scope.fits_toJson 3) rfl rfl
  rw [hwithin, toInt_write_int]

theorem count_encoding (r : Report) {name : Bytes} {n : Int64}
    (h : r.summary.toJson.member? name = some (.int n)) :
    ((Glimpse.find "summary" (r.toJson.write html)).get name).toInt = n := by
  have hsummary : r.toJson.member? "summary" = some r.summary.toJson := rfl
  have hfits := r.summary.fits_toJson 0
  have hfind : Glimpse.find name (r.summary.toJson.write html) =
      (r.summary.toJson.member? name).elim .missing fun value => .ofText (value.write html) :=
    Json.find_write html hfits rfl name
  rw [find_encoding, hsummary, Option.elim_some, Glimpse.get,
    Glimpse.ofText_raw (hfits.isValue_write html).text, hfind, h, Option.elim_some, toInt_write_int]

theorem length_records_encoding (r : Report) :
    (Glimpse.find "triaged_findings" (r.toJson.write html)).elements.length = r.records.length := by
  have hmember : r.toJson.member? "triaged_findings" =
    some (.list? (r.records?.map (·.map (·.toJson)))) := rfl
  rw [find_encoding, hmember, Option.elim_some, records]
  cases r.records? with
  | none => rfl
  | some records =>
    have hvalues : ∀ v ∈ (records.map (·.toJson)).map (Json.write html), Json.IsValue v := by
      simp only [List.map_map, List.mem_map]
      rintro v ⟨record, -, rfl⟩
      exact (record.fits_toJson 0).isValue_write html
    rw [Option.map_some, Json.list?, Json.write_array, Glimpse.elements_arrayText hvalues]
    simp

end Report

end ScanTriage
