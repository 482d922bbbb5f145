import ScanTriage.Proofs.Triage.Chain
import ScanTriage.Proofs.Triage.Windows

/-!
# Reports agree with themselves

Every report that a run gives passes `Report.check`. The tally of a run is the
tally of its records, so its fields count records (`Tally.ofRecords_count`);
and every rule of the catalogue, whatever the evidence, rules one of the known
kinds and gives a reason (`Chain.all_isComplete`), so that the counts per
classification and per confidence each add up to the number of records.
-/

namespace ScanTriage

/-! ## What tallies count -/

namespace Tally

/-- A field of the tally that grows by one for the records with `holds` counts
those records. -/
theorem ofRecords_count (field : Tally → Int64) (holds : TriageRecord → Bool)
    (hzero : field {} = 0)
    (hadd : ∀ t (r : TriageRecord), field (t.add r.decision.toRuling) =
      if holds r then field t + 1 else field t) (records : List TriageRecord) :
    field (ofRecords records) = Int64.ofNat (records.countP holds) := by
  induction records using List.reverseRecOn with
  | nil => exact hzero
  | append_singleton records r ih =>
    rw [ofRecords_append_singleton, hadd, ih, List.countP_append, List.countP_singleton]
    split <;> simp

variable (records : List TriageRecord)

theorem ofRecords_confirmed : (ofRecords records).confirmed =
    Int64.ofNat (records.countP (·.decision.classification = .confirmed)) := by
  refine ofRecords_count (·.confirmed) _ rfl (fun t r => ?_) records
  rcases r.decision with ⟨⟨c, d, -⟩, -⟩
  cases c <;> cases d <;> rfl

theorem ofRecords_falsePositives : (ofRecords records).falsePositives =
    Int64.ofNat (records.countP (·.decision.classification = .falsePositive)) := by
  refine ofRecords_count (·.falsePositives) _ rfl (fun t r => ?_) records
  rcases r.decision with ⟨⟨c, d, -⟩, -⟩
  cases c <;> cases d <;> rfl

theorem ofRecords_needsReview : (ofRecords records).needsReview =
    Int64.ofNat (records.countP (·.decision.classification = .needsReview)) := by
  refine ofRecords_count (·.needsReview) _ rfl (fun t r => ?_) records
  rcases r.decision with ⟨⟨c, d, -⟩, -⟩
  cases c <;> cases d <;> rfl

theorem ofRecords_high : (ofRecords records).high =
    Int64.ofNat (records.countP (·.decision.confidence = .high)) := by
  refine ofRecords_count (·.high) _ rfl (fun t r => ?_) records
  rcases r.decision with ⟨⟨c, d, -⟩, -⟩
  cases c <;> cases d <;> rfl

theorem ofRecords_medium : (ofRecords records).medium =
    Int64.ofNat (records.countP (·.decision.confidence = .medium)) := by
  refine ofRecords_count (·.medium) _ rfl (fun t r => ?_) records
  rcases r.decision with ⟨⟨c, d, -⟩, -⟩
  cases c <;> cases d <;> rfl

theorem ofRecords_low : (ofRecords records).low =
    Int64.ofNat (records.countP (·.decision.confidence = .low)) := by
  refine ofRecords_count (·.low) _ rfl (fun t r => ?_) records
  rcases r.decision with ⟨⟨c, d, -⟩, -⟩
  cases c <;> cases d <;> rfl

end Tally

/-! ## What the catalogue rules -/

@[simp] theorem Bytes.ofString_eq_nil {s : String} : Bytes.ofString s = [] ↔ s = "" := by
  constructor
  · intro h
    have hsize : s.toUTF8.size = 0 := by
      simpa [Bytes.ofString, ByteArray.size, ← Array.length_toList] using h
    exact String.utf8ByteSize_eq_zero_iff.mp hsize
  · rintro rfl
    rfl

/-- Whatever the evidence, the rule rules one of the known kinds and gives a
reason. -/
def Rule.IsComplete (r : Rule) : Prop := ∀ e, Report.isComplete (r.decide e) = true

theorem Rule.fixed_isComplete {name : Bytes} {applies : Evidence → Bool}
    {classification : Classification} {confidence : Confidence} {rationale : String}
    (hc : classification.isValid = true) (hd : confidence.isValid = true) (hr : rationale ≠ "") :
    (Rule.fixed name applies classification confidence rationale).IsComplete := by
  intro e
  simp [Report.isComplete, Rule.decide, Rule.fixed, hc, hd, hr]

/-- Every rule of the chain, the fallback included, is complete. -/
def Chain.IsComplete (c : Chain) : Prop := ∀ r ∈ c.fallback :: c.rules, r.IsComplete

/-- The chain whose reasons quote the evidence; each quotes it within a
sentence of its own. -/
theorem Rules.metadataInLoop_isComplete : Rules.metadataInLoop.IsComplete := by
  unfold Rules.metadataInLoop Chain.IsComplete
  simp only [List.forall_mem_cons]
  refine ⟨?_, ?primed, ?unclear, ?single, ?_, ?_, ?_, ?_, ?many, List.forall_mem_nil _⟩
  case primed | unclear | single | many =>
    intro e
    simp [Report.isComplete, Rule.decide, Rules.primingRationale, Classification.isValid,
      Confidence.isValid, Confidence.rank]
  all_goals exact Rule.fixed_isComplete rfl rfl (by simp)

theorem Chain.all_isComplete : ∀ c ∈ Chain.all, c.IsComplete := by
  simp only [Chain.all, Topic.all, List.map_cons, List.map_nil, List.forall_mem_cons]
  refine ⟨?_, ?_, ?_, ?_, ?_, ?_, ?_, ?_, ?_, ?_, Rules.metadataInLoop_isComplete,
    List.forall_mem_nil _⟩
  all_goals
    simp only [Chain.IsComplete, Rules.debugCode, Rules.httpNoTimeout, Rules.superglobals,
      Rules.unsanitizedRead, Rules.dynamicPattern, Rules.unprepared, Rules.missingCapCheck,
      Rules.restNoPagination, Rules.ajaxPolling, Rules.unboundedQuery, List.forall_mem_cons]
    repeat' apply And.intro
  all_goals first
    | exact List.forall_mem_nil _
    | exact Rule.fixed_isComplete rfl rfl (by simp)

/-- What a record of the engine holds: a complete decision of the chain of its
identifier. -/
structure TriageRecord.IsSound (r : TriageRecord) : Prop where
  classification : r.decision.classification.isValid = true
  confidence : r.decision.confidence.isValid = true
  rationale : r.decision.rationale ≠ []
  /-- The rule is one of the chain of the identifier, or its fallback. -/
  rule : ∃ chain, Chain.ofId? r.key.id = some chain ∧
    (r.decision.rule ∈ chain.rules.map Rule.name ∨ r.decision.rule = chain.fallback.name)

theorem TriageRecord.IsSound.isKnown {r : TriageRecord} (h : r.IsSound) :
    Chain.isKnown r.key.id = true := by
  obtain ⟨chain, hchain, -⟩ := h.rule
  rw [Chain.isKnown, hchain]
  rfl

theorem Finding.record?_isSound {f : Finding} {r : TriageRecord} (h : f.record? = some r) :
    r.IsSound := by
  obtain ⟨d, hd, rfl⟩ := Option.map_eq_some_iff.mp h
  obtain ⟨chain, hchain, rfl⟩ := Option.map_eq_some_iff.mp hd
  have hmem := chain.deciding_mem (.of f)
  have hcomplete : Report.isComplete (chain.decide (.of f)) = true :=
    Chain.all_isComplete chain (List.mem_of_find?_eq_some hchain) _ hmem _
  simp only [Report.isComplete, Bool.and_eq_true, Bool.not_eq_true', List.isEmpty_eq_false_iff]
    at hcomplete
  refine ⟨hcomplete.1.1, hcomplete.1.2, hcomplete.2, chain, hchain, ?_⟩
  rcases List.mem_cons.mp hmem with hr | hr
  · exact .inr (congrArg Rule.name hr)
  · exact .inl (List.mem_map_of_mem hr)

theorem recordsOf_isSound {findings : List Finding} {r : TriageRecord}
    (h : r ∈ recordsOf findings) : r.IsSound := by
  obtain ⟨f, -, hf⟩ := List.mem_filterMap.mp h
  exact f.record?_isSound hf

/-! ## Counts that add up -/

section

variable {records : List TriageRecord}

theorem countP_classifications (h : ∀ r ∈ records, r.IsSound) :
    records.countP (·.decision.classification = .confirmed) +
      records.countP (·.decision.classification = .falsePositive) +
      records.countP (·.decision.classification = .needsReview) = records.length := by
  induction records with
  | nil => rfl
  | cons r records ih =>
    have hr := (h r List.mem_cons_self).classification
    have ih := ih fun r hm => h r (List.mem_cons_of_mem _ hm)
    cases hc : r.decision.classification with
    | other => rw [hc] at hr; cases hr
    | _ => simp [hc]; omega

theorem countP_confidences (h : ∀ r ∈ records, r.IsSound) :
    records.countP (·.decision.confidence = .high) +
      records.countP (·.decision.confidence = .medium) +
      records.countP (·.decision.confidence = .low) = records.length := by
  induction records with
  | nil => rfl
  | cons r records ih =>
    have hr := (h r List.mem_cons_self).confidence
    have ih := ih fun r hm => h r (List.mem_cons_of_mem _ hm)
    cases hc : r.decision.confidence with
    | other => rw [hc] at hr; cases hr
    | _ => simp [hc]; omega

theorem Report.checkRecords_eq_ok (h : ∀ r ∈ records, r.IsSound) (index : Nat) :
    Report.checkRecords index records = .ok () := by
  induction records generalizing index with
  | nil => rfl
  | cons r records ih =>
    have hr := h r List.mem_cons_self
    have hcomplete : Report.isComplete r.decision = true := by
      simp [Report.isComplete, hr.classification, hr.confidence, hr.rationale]
    rw [Report.checkRecords, hcomplete, hr.isKnown]
    exact ih (fun r hm => h r (List.mem_cons_of_mem _ hm)) _

end

/-! ## Reports of runs -/

/-- A report on some findings whose parts agree: it passes its own check, its
counts are those of its records, and its records are sound. -/
structure Report.AgreesOn (findings : List Finding) (r : Report) : Prop where
  check : r.check = .ok ()
  confirmed : r.summary.confirmed.toInt =
    r.records.countP (·.decision.classification = .confirmed)
  falsePositives : r.summary.falsePositives.toInt =
    r.records.countP (·.decision.classification = .falsePositive)
  needsReview : r.summary.needsReview.toInt =
    r.records.countP (·.decision.classification = .needsReview)
  high : r.breakdown.high.toInt = r.records.countP (·.decision.confidence = .high)
  medium : r.breakdown.medium.toInt = r.records.countP (·.decision.confidence = .medium)
  low : r.breakdown.low.toInt = r.records.countP (·.decision.confidence = .low)
  summarySum : r.summary.confirmed.toInt + r.summary.falsePositives.toInt +
    r.summary.needsReview.toInt = r.scope.reviewed.toInt
  breakdownSum : r.breakdown.high.toInt + r.breakdown.medium.toInt + r.breakdown.low.toInt =
    r.scope.reviewed.toInt
  bound : r.scope.reviewed.toInt ≤ min (findings.length : Int) r.scope.maxReviewed.toInt
  records : ∀ record ∈ r.records, record.IsSound

/-- A finished report whose counts are the tally of its records. -/
structure Report.IsTallied (r : Report) : Prop where
  performed : r.performed = true
  reviewed : r.scope.reviewed = Int64.ofNat r.records.length
  summary : r.summary = (Tally.ofRecords r.records).summary
  breakdown : r.breakdown = (Tally.ofRecords r.records).breakdown

theorem Report.IsTallied.summary_sum {r : Report} (h : r.IsTallied)
    (hsound : ∀ record ∈ r.records, record.IsSound) :
    r.summary.confirmed + r.summary.falsePositives + r.summary.needsReview = r.scope.reviewed := by
  rw [h.reviewed, h.summary, ← countP_classifications hsound, Int64.ofNat_add, Int64.ofNat_add,
    ← Tally.ofRecords_confirmed, ← Tally.ofRecords_falsePositives, ← Tally.ofRecords_needsReview]
  rfl

theorem Report.IsTallied.check_eq_ok {r : Report} (h : r.IsTallied)
    (hsound : ∀ record ∈ r.records, record.IsSound)
    (hcap : ¬ r.scope.maxReviewed < r.scope.reviewed) : r.check = .ok () := by
  simp only [Report.check, h.performed, h.summary_sum hsound, bne_self_eq_false]
  rw [h.reviewed, bne_self_eq_false, ← h.reviewed, if_neg hcap]
  exact Report.checkRecords_eq_ok hsound 0

theorem Report.IsTallied.agreesOn {r : Report} (h : r.IsTallied) {findings : List Finding}
    (hsound : ∀ record ∈ r.records, record.IsSound) (hlen : r.records.length ≤ findings.length)
    (hfits : findings.length < 2 ^ 63)
    (hcap : (r.records.length : Int) ≤ r.scope.maxReviewed.toInt) : r.AgreesOn findings := by
  have hreviewed : r.scope.reviewed.toInt = r.records.length := by
    rw [h.reviewed, Int64.toInt_ofNat_of_lt (by omega)]
  have hcount : ∀ p : TriageRecord → Bool, (Int64.ofNat (r.records.countP p)).toInt =
      r.records.countP p := fun p => by
    have := r.records.countP_le_length (p := p)
    exact Int64.toInt_ofNat_of_lt (by omega)
  have hconfirmed := (congrArg Int64.toInt (Tally.ofRecords_confirmed r.records)).trans (hcount _)
  have hfalse := (congrArg Int64.toInt (Tally.ofRecords_falsePositives r.records)).trans (hcount _)
  have hneeds := (congrArg Int64.toInt (Tally.ofRecords_needsReview r.records)).trans (hcount _)
  have hhigh := (congrArg Int64.toInt (Tally.ofRecords_high r.records)).trans (hcount _)
  have hmedium := (congrArg Int64.toInt (Tally.ofRecords_medium r.records)).trans (hcount _)
  have hlow := (congrArg Int64.toInt (Tally.ofRecords_low r.records)).trans (hcount _)
  have hclass := countP_classifications hsound
  have hconf := countP_confidences hsound
  exact
    { check := h.check_eq_ok hsound (by rw [Int64.lt_iff_toInt_lt, hreviewed]; omega)
      confirmed := by rw [h.summary]; exact hconfirmed
      falsePositives := by rw [h.summary]; exact hfalse
      needsReview := by rw [h.summary]; exact hneeds
      high := by rw [h.breakdown]; exact hhigh
      medium := by rw [h.breakdown]; exact hmedium
      low := by rw [h.breakdown]; exact hlow
      summarySum := by
        rw [h.summary, hreviewed]
        simp only [Tally.summary]
        omega
      breakdownSum := by
        rw [h.breakdown, hreviewed]
        simp only [Tally.breakdown]
        omega
      bound := by
        rw [hreviewed]
        omega
      records := hsound }

namespace Engine

variable {engine : Engine} {schedule : Schedule} {findings? : Option (List Finding)}

/-- The report of any run, called off or not, is that of the plain loop. -/
theorem runWith_report (hs : schedule.IsOrder) (hf : Addressable (findings?.getD []))
    {report : Report} {events : List Event}
    (hrun : engine.runWith schedule findings? = .ok (report, events)) :
    report = engine.report findings? (engine.plain (findings?.getD [])) := by
  cases hc : engine.cancelled with
  | false =>
    obtain ⟨shown, hok⟩ := runWith_eq_ok hs engine hc findings? hf
    rw [hok] at hrun
    cases hrun
    rfl
  | true =>
    rw [runWith, windows, hc] at hrun
    by_cases hgo : State.goesOn engine.limit (Int64.ofNat (findings?.getD []).length)
        { rest := findings?.getD [] } = true
    · rw [if_pos hgo] at hrun
      cases hrun
    · rw [if_neg hgo] at hrun
      cases hrun
      have hstop := (Between.start engine.cap (findings?.getD [])).stop hf hgo
      rw [State.after_nil] at hstop
      rw [plain, hstop]

theorem records_report_after (seen rest : List Finding) :
    (engine.report findings? (State.after seen rest)).records = recordsOf seen := by
  simp [report, Report.records, State.after]

theorem report_after_isTallied {seen rest : List Finding} :
    (engine.report findings? (State.after seen rest)).IsTallied := by
  refine ⟨rfl, ?_, ?_, ?_⟩ <;> rw [records_report_after]
  · exact State.after_reviewed
  · rfl
  · rfl

/-- A state has counted everything up to one of the findings. -/
def State.Counted (findings : List Finding) (s : State) : Prop :=
  ∃ seen rest position, findings = seen ++ rest ∧
    s = { State.after seen rest with position := position }

theorem State.Counted.advance (hs : schedule.IsOrder) {findings : List Finding} {s : State}
    (h : s.Counted findings) (total : Int64) :
    (advance schedule engine total s).1.Counted findings := by
  obtain ⟨seen, rest, position, rfl, rfl⟩ := h
  simp only [Engine.advance]
  rw [classifyWindow_outcomes (hs _), State.foldl_add_after]
  generalize (windowEnd engine.limit total { State.after seen rest with position := position } -
    position).toNatClampNeg = size
  refine ⟨seen ++ rest.take size, rest.drop size, _, ?_, rfl⟩
  rw [List.append_assoc, List.take_append_drop]

theorem State.Counted.windows (hs : schedule.IsOrder) {findings : List Finding} {s s' : State}
    (h : s.Counted findings) {total : Int64} {fuel : Nat} {events shown : List Event}
    (hrun : windows schedule engine total fuel s events = .ok (s', shown)) :
    s'.Counted findings := by
  induction fuel generalizing s events with
  | zero =>
    cases hrun
    exact h
  | succ fuel ih =>
    rw [Engine.windows] at hrun
    split at hrun
    · split at hrun
      · cases hrun
      · exact ih (h.advance hs total) hrun
    · cases hrun
      exact h

/-- The report of every run counts what was triaged up to one of its findings. -/
theorem runWith_report_after (hs : schedule.IsOrder) {report : Report} {events : List Event}
    (hrun : engine.runWith schedule findings? = .ok (report, events)) :
    ∃ seen rest, findings?.getD [] = seen ++ rest ∧
      report = engine.report findings? (State.after seen rest) := by
  rw [runWith] at hrun
  cases hwindows : windows schedule engine (Int64.ofNat (findings?.getD []).length)
      ((findings?.getD []).length + 1) { rest := findings?.getD [] }
      [.trace (.section "Classify")] with
  | error stopped =>
    rw [hwindows] at hrun
    cases hrun
  | ok result =>
    rw [hwindows] at hrun
    cases hrun
    have hstart : State.Counted (findings?.getD []) { rest := findings?.getD [] } :=
      ⟨[], findings?.getD [], 0, rfl, rfl⟩
    obtain ⟨seen, rest, position, hfindings, hstate⟩ := hstart.windows hs hwindows
    exact ⟨seen, rest, hfindings, by rw [hstate]; rfl⟩

theorem report_plain_agrees (hf : Addressable (findings?.getD [])) :
    (engine.report findings? (engine.plain (findings?.getD []))).AgreesOn (findings?.getD []) := by
  have hrecords := report_plain_records engine findings? hf
  have hcap := engine.cap_lt
  have hlen := length_recordsOf_le (findings?.getD [])
  obtain ⟨seen, rest, -, -, heq⟩ := plain_eq_after engine hf
  rw [heq] at hrecords ⊢
  apply report_after_isTallied.agreesOn
  · intro r hr
    rw [hrecords] at hr
    exact recordsOf_isSound (List.mem_of_mem_take hr)
  · rw [hrecords, List.length_take]
    omega
  · unfold Addressable at hf
    omega
  · have hlimit : (engine.report findings? (State.after seen rest)).scope.maxReviewed =
        engine.limit := rfl
    rw [hrecords, List.length_take, hlimit, limit_eq, Int64.toInt_ofNat_of_lt hcap]
    omega

/-- The report of every run that gives one agrees with itself: it passes its
own check, its counts are those of its records and add up, it stays within the
cap, and each record holds a decision of the chain of its identifier. -/
theorem runWith_agrees (schedule : Schedule) (hs : schedule.IsOrder) (engine : Engine)
    (findings? : Option (List Finding)) (hf : Addressable (findings?.getD [])) (report : Report)
    (events : List Event) (hrun : engine.runWith schedule findings? = .ok (report, events)) :
    report.AgreesOn (findings?.getD []) := by
  rw [runWith_report hs hf hrun]
  exact report_plain_agrees hf

/-- Three workers that take the last finding first; two of three findings are
known, and the cap leaves room for more. -/
theorem runWith_agrees_reversed :
    let findings : List Finding :=
      [ { id := "n-plus-one-pattern", code := "foreach ( $posts as $post )" },
        { id := "unheard-of" },
        { id := "hcc-008-unsafe-regexp", file := "assets/lib/a.min.js" } ]
    let engine : Engine := { maxFindings := 5, workers := 3 }
    Schedule.IsOrder (fun _ => List.reverse) ∧ Addressable findings ∧
    ∃ report events, engine.runWith (fun _ => List.reverse) (some findings) = .ok (report, events) ∧
      report.AgreesOn findings ∧ report.scope.reviewed = 2 := by
  intro findings engine
  have hs : Schedule.IsOrder (fun _ => List.reverse) := fun _ places => places.reverse_perm
  have hf : Addressable findings := by unfold Addressable; decide
  obtain ⟨shown, hrun⟩ := runWith_eq_ok hs engine rfl (some findings) hf
  exact ⟨hs, hf, _, _, hrun, runWith_agrees _ hs engine (some findings) hf _ _ hrun,
    by decide +kernel⟩

end Engine

end ScanTriage
