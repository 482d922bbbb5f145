import Mathlib.Algebra.GroupWithZero.Nat
import Mathlib.Data.List.Dedup
import ScanTriage.History.Quality
import ScanTriage.Proofs.History.Table
import ScanTriage.Proofs.History.Unrotated
import ScanTriage.Proofs.Triage.Consistency

/-!
# Statistics over runs

What is summed up from the records of runs divides what was triaged in them: by
verdict, by identifier and by the confidence of the runs (`Quality.Partitions`).
Three tallies meet here, that of the engine, the table of a record and the table
over all records. Each of them counts the records of the reports: modulo `2^64`
whatever the runs (`Quality.Sums.ofRecords`), and as they are if the counts fit.
-/

namespace ScanTriage

open SortedTable (Groups group)

/-! ## Counting verdicts -/

def verdictCount (c : Classification) (records : List TriageRecord) : Nat :=
  records.countP (·.decision.classification = c)

theorem verdictCount_append (c : Classification) (records records' : List TriageRecord) :
    verdictCount c (records ++ records') = verdictCount c records + verdictCount c records' :=
  List.countP_append

theorem verdictCount_le (c : Classification) (records : List TriageRecord) :
    verdictCount c records ≤ records.length := List.countP_le_length

def IdCounts.ofRecords (records : List TriageRecord) : IdCounts where
  confirmed := .ofNat (verdictCount .confirmed records)
  falsePositives := .ofNat (verdictCount .falsePositive records)
  needsReview := .ofNat (verdictCount .needsReview records)

theorem IdCounts.add_ofRecords (r : TriageRecord) (records : List TriageRecord) :
    (ofRecords records).add r.decision.classification = ofRecords (records ++ [r]) := by
  simp only [ofRecords, verdictCount_append, Int64.ofNat_add]
  cases hc : r.decision.classification <;> simp [IdCounts.add, verdictCount, hc]

def IdQuality.ofRecords (records : List TriageRecord) : IdQuality :=
  IdQuality.add {} (.ofRecords records)

theorem IdQuality.add_ofRecords (records records' : List TriageRecord) :
    (ofRecords records).add (.ofRecords records') = ofRecords (records ++ records') := by
  simp only [ofRecords, IdQuality.add, IdCounts.total, IdCounts.ofRecords, verdictCount_append,
    Int64.ofNat_add, Int64.zero_add, IdQuality.mk.injEq, and_true]
  ac_rfl

theorem IdQuality.ofRecords_reviewed {records : List TriageRecord}
    (h : ∀ r ∈ records, r.IsSound) :
    (ofRecords records).reviewed = .ofNat records.length := by
  rw [← countP_classifications h, Int64.ofNat_add, Int64.ofNat_add]
  simp only [ofRecords, IdQuality.add, Int64.zero_add]
  rfl

/-- Statistics that count some records. -/
structure IdQuality.Counts (records : List TriageRecord) (q : IdQuality) : Prop where
  reviewed : q.reviewed.toInt = records.length
  confirmed : q.confirmed.toInt = verdictCount .confirmed records
  falsePositives : q.falsePositives.toInt = verdictCount .falsePositive records
  needsReview : q.needsReview.toInt = verdictCount .needsReview records

theorem IdQuality.ofRecords_counts {records : List TriageRecord} (h : ∀ r ∈ records, r.IsSound)
    (hfits : records.length < 2 ^ 63) : (ofRecords records).Counts records := by
  have hcount : ∀ c, (0 + Int64.ofNat (verdictCount c records)).toInt = verdictCount c records := by
    intro c
    have hle := verdictCount_le c records
    rw [Int64.zero_add, Int64.toInt_ofNat_of_lt (by omega)]
  refine ⟨?_, hcount _, hcount _, hcount _⟩
  rw [ofRecords_reviewed h, Int64.toInt_ofNat_of_lt hfits]

/-! ## Runs -/

theorem Chain.isValid_of_isKnown {id : Bytes} (h : Chain.isKnown id = true) :
    Utf8.isValid id = true := by
  have hall : ∀ id ∈ Chain.all.map Chain.id, Utf8.isValid id = true := by decide +kernel
  obtain ⟨chain, hchain⟩ := Option.isSome_iff_exists.mp h
  have hid : chain.id = id := by simpa using List.find?_some hchain
  rw [← hid]
  exact hall _ (List.mem_map_of_mem (List.mem_of_find?_eq_some hchain))

theorem Tally.overall_cases (t : Tally) :
    t.overall = .high ∨ t.overall = .medium ∨ t.overall = .low := by
  unfold Tally.overall
  dsimp only
  split_ifs <;> simp

/-- A finished run of the engine over the findings of a report. -/
structure TriageRun where
  schedule : Engine.Schedule
  engine : Engine
  findings? : Option (List Finding)
  report : Report
  /-- The path of the report that the findings come from. -/
  path : Bytes
  toolVersion : Bytes
  isOrder : schedule.IsOrder
  finished : ∃ events, engine.runWith schedule findings? = .ok (report, events)

namespace TriageRun

def ofLive (schedule : Engine.Schedule) (isOrder : schedule.IsOrder) (engine : Engine)
    (live : engine.cancelled = false) (findings? : Option (List Finding))
    (addressable : Engine.Addressable (findings?.getD [])) (path toolVersion : Bytes) :
    TriageRun where
  schedule := schedule
  engine := engine
  findings? := findings?
  report := engine.report findings? (engine.plain (findings?.getD []))
  path := path
  toolVersion := toolVersion
  isOrder := isOrder
  finished :=
    have ⟨_, hrun⟩ := Engine.runWith_eq_ok isOrder engine live findings? addressable
    ⟨_, hrun⟩

def findings (run : TriageRun) : List Finding := run.findings?.getD []

def record (run : TriageRun) : HistoryRecord :=
  .ofReport run.path (.ofNat run.findings.length) run.report run.toolVersion

/-- The table of a record groups the records of its report. -/
theorem groups_byId (run : TriageRun) :
    Groups (·.key.id) IdCounts.ofRecords run.report.records run.record.byId :=
  Groups.foldl_update (fun r records => IdCounts.add_ofRecords r records) run.report.records

def level (run : TriageRun) : Bytes := run.report.summary.confidence.label

/-- The report is that on the findings that were seen. -/
theorem report_eq (run : TriageRun) : ∃ seen rest, run.findings = seen ++ rest ∧
    run.report = run.engine.report run.findings? (Engine.State.after seen rest) := by
  obtain ⟨events, hrun⟩ := run.finished
  exact Engine.runWith_report_after run.isOrder hrun

theorem isTallied (run : TriageRun) : run.report.IsTallied := by
  obtain ⟨seen, rest, -, hreport⟩ := run.report_eq
  rw [hreport]
  exact Engine.report_after_isTallied

theorem isSound (run : TriageRun) : ∀ r ∈ run.report.records, r.IsSound := by
  obtain ⟨seen, rest, -, hreport⟩ := run.report_eq
  rw [hreport, Engine.records_report_after]
  exact fun r => recordsOf_isSound

theorem length_records_le (run : TriageRun) :
    run.report.records.length ≤ run.findings.length := by
  obtain ⟨seen, rest, hfindings, hreport⟩ := run.report_eq
  have hseen := length_recordsOf_le seen
  rw [hreport, Engine.records_report_after, hfindings, List.length_append]
  omega

/-- The summary counts the verdicts on the records. -/
theorem summary_eq (run : TriageRun) :
    run.report.summary.confirmed = .ofNat (verdictCount .confirmed run.report.records) ∧
      run.report.summary.falsePositives =
        .ofNat (verdictCount .falsePositive run.report.records) ∧
      run.report.summary.needsReview = .ofNat (verdictCount .needsReview run.report.records) := by
  rw [run.isTallied.summary]
  exact ⟨Tally.ofRecords_confirmed _, Tally.ofRecords_falsePositives _,
    Tally.ofRecords_needsReview _⟩

theorem level_cases (run : TriageRun) :
    run.level = "high" ∨ run.level = "medium" ∨ run.level = "low" := by
  rw [level, run.isTallied.summary, Tally.summary]
  rcases (Tally.ofRecords run.report.records).overall_cases with h | h | h <;> rw [h]
  · exact .inl rfl
  · exact .inr (.inl rfl)
  · exact .inr (.inr rfl)

def triaged (runs : List TriageRun) : List TriageRecord := runs.flatMap (·.report.records)

def total (runs : List TriageRun) : Nat := (runs.map (·.findings.length)).sum

variable (runs : List TriageRun) (run : TriageRun)

theorem triaged_concat : triaged (runs ++ [run]) = triaged runs ++ run.report.records := by
  simp [triaged]

theorem total_concat : total (runs ++ [run]) = total runs + run.findings.length := by
  simp [total]

theorem triaged_isSound : ∀ r ∈ triaged runs, r.IsSound := by
  intro r hr
  obtain ⟨run, -, hr⟩ := List.mem_flatMap.mp hr
  exact run.isSound r hr

theorem length_triaged_le : (triaged runs).length ≤ total runs := by
  induction runs using List.reverseRecOn with
  | nil => exact Nat.le_refl 0
  | append_singleton runs run ih =>
    have hrun := run.length_records_le
    rw [triaged_concat, total_concat, List.length_append]
    omega

end TriageRun

open TriageRun (triaged total)

/-! ## Sums -/

namespace Quality

/-- Statistics that count what was done in some runs, modulo `2^64`. -/
structure Sums (rs : List TriageRun) (q : Quality) : Prop where
  runs : q.runs = .ofNat rs.length
  nodup : q.reports.Nodup
  reports : ∀ path, path ∈ q.reports ↔ path ∈ rs.map TriageRun.path
  totalFindings : q.totalFindings = .ofNat (total rs)
  reviewed : q.reviewed = .ofNat (triaged rs).length
  confirmed : q.confirmed = .ofNat (verdictCount .confirmed (triaged rs))
  falsePositives : q.falsePositives = .ofNat (verdictCount .falsePositive (triaged rs))
  needsReview : q.needsReview = .ofNat (verdictCount .needsReview (triaged rs))
  levels : Groups TriageRun.level (fun rs => .ofNat rs.length) rs q.confidenceLevels
  byId : Groups (·.key.id) IdQuality.ofRecords (triaged rs) q.byId

namespace Sums

variable {rs : List TriageRun} {q : Quality}

theorem empty : Sums [] {} where
  runs := rfl
  nodup := .nil
  reports path := by simp
  totalFindings := rfl
  reviewed := rfl
  confirmed := rfl
  falsePositives := rfl
  needsReview := rfl
  levels := .nil _ _
  byId := .nil _ _

theorem add (h : q.Sums rs) (run : TriageRun) : (q.add run.record).Sums (rs ++ [run]) := by
  obtain ⟨hconfirmed, hfalse, hneeds⟩ := run.summary_eq
  have hlevel : run.level.isEmpty = false := by
    rcases run.level_cases with hl | hl | hl <;> rw [hl] <;> decide
  constructor
  case runs =>
    rw [List.length_append, List.length_singleton, Int64.ofNat_add, ← h.runs]
    rfl
  case nodup =>
    simp only [Quality.add]
    split
    · exact h.nodup
    · next hnew => exact List.nodup_cons.mpr ⟨by simpa using hnew, h.nodup⟩
  case reports =>
    intro path
    have hpath : run.record.report = run.path := rfl
    have hold := h.reports
    simp only [Quality.add, hpath, List.contains_eq_mem, decide_eq_true_eq]
    split <;> grind
  case totalFindings =>
    rw [TriageRun.total_concat, Int64.ofNat_add, ← h.totalFindings]
    rfl
  case reviewed =>
    rw [TriageRun.triaged_concat, List.length_append, Int64.ofNat_add, ← h.reviewed,
      ← run.isTallied.reviewed]
    rfl
  case confirmed =>
    rw [TriageRun.triaged_concat, verdictCount_append, Int64.ofNat_add, ← h.confirmed, ← hconfirmed]
    rfl
  case falsePositives =>
    rw [TriageRun.triaged_concat, verdictCount_append, Int64.ofNat_add, ← h.falsePositives,
      ← hfalse]
    rfl
  case needsReview =>
    rw [TriageRun.triaged_concat, verdictCount_append, Int64.ofNat_add, ← h.needsReview, ← hneeds]
    rfl
  case levels =>
    have hadd := h.levels.update (f := (· + 1)) run fun ys => by
      rw [List.length_append, List.length_singleton, Int64.ofNat_add]
      rfl
    rw [Quality.add, show run.record.summary.confidence.label = run.level from rfl]
    simp only [hlevel]
    exact hadd
  case byId =>
    rw [TriageRun.triaged_concat]
    exact h.byId.merge run.groups_byId IdQuality.add_ofRecords

theorem ofRecords (rs : List TriageRun) :
    (Quality.ofRecords (rs.map TriageRun.record)).Sums rs := by
  induction rs using List.reverseRecOn with
  | nil => exact .empty
  | append_singleton rs run ih =>
    rw [Quality.ofRecords, List.map_append, List.foldl_append]
    exact ih.add run

end Sums

/-! ## Parts and wholes -/

/-- Statistics that divide what was triaged in some runs. -/
structure Partitions (rs : List TriageRun) (q : Quality) : Prop where
  runs : q.runs.toInt = rs.length
  reports : q.reports.length = (rs.map TriageRun.path).dedup.length
  totalFindings : q.totalFindings.toInt = total rs
  reviewed : q.reviewed.toInt = (triaged rs).length
  confirmed : q.confirmed.toInt = verdictCount .confirmed (triaged rs)
  falsePositives : q.falsePositives.toInt = verdictCount .falsePositive (triaged rs)
  needsReview : q.needsReview.toInt = verdictCount .needsReview (triaged rs)
  verdictSum : q.confirmed.toInt + q.falsePositives.toInt + q.needsReview.toInt = q.reviewed.toInt
  /-- Every identifier stands once. -/
  ids : (q.byId.map Prod.fst).Nodup
  /-- It stands for some finding, and it is one that is triaged. -/
  present : ∀ x ∈ q.byId, 0 < x.2.reviewed.toInt ∧ Chain.isKnown x.1 = true
  byId : ∀ id, ((q.byId.lookup id).getD {}).Counts ((triaged rs).filter (·.key.id = id))
  confirmedSum : (q.byId.map fun x => x.2.confirmed.toInt).sum = q.confirmed.toInt
  falsePositivesSum : (q.byId.map fun x => x.2.falsePositives.toInt).sum = q.falsePositives.toInt
  needsReviewSum : (q.byId.map fun x => x.2.needsReview.toInt).sum = q.needsReview.toInt
  levelSum : (q.confidenceLevels.map fun x => x.2.toInt).sum = q.runs.toInt
  /-- No share is above the whole. -/
  shares : q.falsePositives.toInt ≤ q.reviewed.toInt ∧ q.confirmed.toInt ≤ q.reviewed.toInt ∧
    q.needsReview.toInt ≤ q.reviewed.toInt ∧ q.reviewed.toInt ≤ q.totalFindings.toInt
  sharesById : ∀ x ∈ q.byId, x.2.falsePositives.toInt ≤ x.2.reviewed.toInt

theorem counts_group {rs : List TriageRun} (htotal : total rs < 2 ^ 63) (id : Bytes) :
    (IdQuality.ofRecords (group (·.key.id) (triaged rs) id)).Counts
      (group (·.key.id) (triaged rs) id) := by
  have htriaged := TriageRun.length_triaged_le rs
  have hlength : (group (·.key.id) (triaged rs) id).length ≤ (triaged rs).length :=
    List.length_filter_le ..
  refine IdQuality.ofRecords_counts (fun r hr => ?_) (by omega)
  exact TriageRun.triaged_isSound rs r (List.mem_of_mem_filter hr)

theorem Sums.partitions {rs : List TriageRun} {q : Quality} (h : q.Sums rs)
    (hruns : rs.length < 2 ^ 63) (htotal : total rs < 2 ^ 63) : q.Partitions rs := by
  have htriaged := TriageRun.length_triaged_le rs
  have hcount : ∀ c, (Int64.ofNat (verdictCount c (triaged rs))).toInt =
      verdictCount c (triaged rs) := fun c => by
    have hle := verdictCount_le c (triaged rs)
    exact Int64.toInt_ofNat_of_lt (by omega)
  have hallRuns : q.runs.toInt = rs.length := by
    rw [h.runs, Int64.toInt_ofNat_of_lt hruns]
  have hallFindings : q.totalFindings.toInt = total rs := by
    rw [h.totalFindings, Int64.toInt_ofNat_of_lt htotal]
  have hreviewed : q.reviewed.toInt = (triaged rs).length := by
    rw [h.reviewed, Int64.toInt_ofNat_of_lt (by omega)]
  have hconfirmed := (congrArg Int64.toInt h.confirmed).trans (hcount _)
  have hfalse := (congrArg Int64.toInt h.falsePositives).trans (hcount _)
  have hneeds := (congrArg Int64.toInt h.needsReview).trans (hcount _)
  have hsum : verdictCount .confirmed (triaged rs) + verdictCount .falsePositive (triaged rs) +
      verdictCount .needsReview (triaged rs) = (triaged rs).length :=
    countP_classifications (TriageRun.triaged_isSound rs)
  have hgroup := counts_group htotal
  exact
    { runs := hallRuns
      reports := by
        have hperm := (List.perm_ext_iff_of_nodup h.nodup (List.nodup_dedup _)).mpr fun path =>
          (h.reports path).trans List.mem_dedup.symm
        exact hperm.length_eq
      totalFindings := hallFindings
      reviewed := hreviewed
      confirmed := hconfirmed
      falsePositives := hfalse
      needsReview := hneeds
      verdictSum := by omega
      ids := h.byId.nodup_keys
      present := fun x hx => by
        obtain ⟨hne, hvalue⟩ := h.byId.mem_iff.mp hx
        obtain ⟨r, hr, hid⟩ := SortedTable.group_ne_nil.mp hne
        have hpositive := List.length_pos_iff.mpr hne
        rw [hvalue, (hgroup x.1).reviewed]
        exact ⟨by omega, hid ▸ (TriageRun.triaged_isSound rs r hr).isKnown⟩
      byId := fun id => by
        have hvalue : (q.byId.lookup id).getD {} = _ := h.byId.getD_lookup id
        rw [hvalue]
        exact hgroup id
      confirmedSum := by
        rw [hconfirmed]
        exact h.byId.sum_eq (·.confirmed.toInt) _ fun id => (hgroup id).confirmed
      falsePositivesSum := by
        rw [hfalse]
        exact h.byId.sum_eq (·.falsePositives.toInt) _ fun id => (hgroup id).falsePositives
      needsReviewSum := by
        rw [hneeds]
        exact h.byId.sum_eq (·.needsReview.toInt) _ fun id => (hgroup id).needsReview
      levelSum := by
        rw [hallRuns, ← List.countP_true]
        refine h.levels.sum_eq Int64.toInt _ fun level => ?_
        have hlength : (group TriageRun.level rs level).length ≤ rs.length :=
          List.length_filter_le ..
        rw [List.countP_true, Int64.toInt_ofNat_of_lt (by omega)]
      shares := by omega
      sharesById := fun x hx => by
        have hle := verdictCount_le .falsePositive (group (·.key.id) (triaged rs) x.1)
        rw [(h.byId.mem_iff.mp hx).2, (hgroup x.1).reviewed, (hgroup x.1).falsePositives]
        omega }

/-! ## Through the history -/

theorem ofRecords_scrubbed (records : List HistoryRecord) :
    ofRecords (records.map HistoryRecord.scrubbed) = ofRecords records := by
  rw [ofRecords, List.foldl_map]
  rfl

end Quality

namespace TriageRun

/-- The record of the run can be kept in the history. -/
structure IsRecordable (run : TriageRun) : Prop where
  path : Utf8.isValid run.path = true
  toolVersion : Utf8.isValid run.toolVersion = true
  short : run.record.toLine.length < History.maxLine

theorem IsRecordable.isStorable {run : TriageRun} (h : run.IsRecordable) :
    run.record.scrubbed.IsStorable where
  runId := Utf8.isValid_scrub _
  timestamp := Utf8.isValid_scrub _
  report := h.path
  toolVersion := h.toolVersion
  confidence := by
    change Utf8.isValid run.level = true
    rcases run.level_cases with hl | hl | hl <;> rw [hl] <;> decide
  ids x hx := by
    obtain ⟨r, hr, hid⟩ := SortedTable.group_ne_nil.mp (run.groups_byId.mem_iff.mp hx).1
    rw [← hid]
    exact Chain.isValid_of_isKnown (run.isSound r hr).isKnown
  sorted := run.groups_byId.sorted
  short := by
    rw [HistoryRecord.toLine_scrubbed]
    exact h.short

end TriageRun

namespace Quality

/-- The statistics over the records of any runs divide what was triaged, and so do
those over the records that are read back from a fresh state directory. -/
theorem partitions_of_runs (rs : List TriageRun) (hruns : rs.length < 2 ^ 63)
    (htotal : total rs < 2 ^ 63) :
    (ofRecords (rs.map TriageRun.record)).Partitions rs ∧
      ∀ (t : Tree) (dir : Bytes) (m : Int64), t.IsProper → History.IsFresh t dir →
        Tree.HasRoom dir History.fileName → m ≤ 0 → (∀ run ∈ rs, run.IsRecordable) →
        ∃ t' kept, t.run (History.appendAll dir (rs.map fun run => (run.record, m))) = (.ok (), t') ∧
          t'.run (History.records dir) = (.ok kept, t') ∧ (ofRecords kept).Partitions rs := by
  have hparts := (Sums.ofRecords rs).partitions hruns htotal
  refine ⟨hparts, fun t dir m hproper hfresh hroom hm hrecordable => ?_⟩
  have hstorable : ∀ r ∈ rs.map TriageRun.record, r.scrubbed.IsStorable :=
    List.forall_mem_map.mpr fun run hrun => (hrecordable run hrun).isStorable
  obtain ⟨t', hrun, hread⟩ := hfresh.run_records_appendAll hproper hroom hm hstorable
  rw [List.map_map] at hrun
  refine ⟨t', _, hrun, hread, ?_⟩
  rw [ofRecords_scrubbed]
  exact hparts

/-- Three runs over two reports, one of them capped below the findings that it
recognizes, with stray bytes in the identifiers of the runs. -/
theorem partitions_of_runs_capped :
    let findings : List Finding :=
      [ { id := "n-plus-one-pattern", code := "foreach ( $posts as $post )" },
        { id := "unheard-of" },
        { id := "hcc-008-unsafe-regexp", file := "assets/lib/a.min.js" } ]
    let capped : Engine := { maxFindings := 1, runId? := some [0xFF] }
    let wide : Engine := { maxFindings := 9, workers := 3, runId? := some [0xC3, 0x28] }
    let rs : List TriageRun :=
      [ .ofLive (fun _ => id) (fun _ places => .refl places) capped rfl (some findings)
          (by unfold Engine.Addressable; decide) "/r/a.json" "1.0",
        .ofLive (fun _ => id) (fun _ places => .refl places) capped rfl none
          (by unfold Engine.Addressable; decide) "/r/b.json" "",
        .ofLive (fun _ => List.reverse) (fun _ places => places.reverse_perm) wide rfl
          (some findings) (by unfold Engine.Addressable; decide) "/r/a.json" "1.0" ]
    total rs = 6 ∧ (triaged rs).length = 3 ∧
      (ofRecords (rs.map TriageRun.record)).Partitions rs ∧
      ∃ t' kept, Tree.run (History.appendAll "s" (rs.map fun run => (run.record, 0))) {} =
          (.ok (), t') ∧
        t'.run (History.records "s") = (.ok kept, t') ∧ (ofRecords kept).Partitions rs := by
  intro findings capped wide rs
  have hmade : Tree.run (.makeDirectories "s") {} =
      (.ok (), (Tree.run (.makeDirectories "s") {}).2) := Prod.ext (by decide +kernel) rfl
  have hfresh : History.IsFresh {} "s" := ⟨_, hmade, by decide +kernel⟩
  have hrecordable : ∀ run ∈ rs, run.IsRecordable := by
    simp only [rs, List.forall_mem_cons]
    exact ⟨⟨by decide, by decide, by decide +kernel⟩, ⟨by decide, by decide, by decide +kernel⟩,
      ⟨by decide, by decide, by decide +kernel⟩, List.forall_mem_nil _⟩
  obtain ⟨hparts, hhistory⟩ := partitions_of_runs rs (by decide) (by decide)
  exact ⟨rfl, by decide +kernel, hparts, hhistory {} "s" 0 (Tree.isProper_of_root (by decide) rfl)
    hfresh (by decide) (by decide) hrecordable⟩

end Quality

end ScanTriage
