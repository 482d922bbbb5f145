import Mathlib.Data.Finset.Card
import Mathlib.Data.List.Forall2
import ScanTriage.Cli.Summary
import ScanTriage.Proofs.History.Table

/-!
# Statistics in any order

The statistics over some records are sums: over the records, over those of one
confidence, over the entries of one identifier in their tables
(`Quality.Gathers`). A sum modulo `2^64` does not depend on the order of what is
added up. So neither the order of the records matters nor the order in which the
entries of their tables are taken (`Gathers.same`), and the statistics over a
history in two parts are those of the parts put together (`Gathers.isSum`). The
identifiers are ranked by a strict total order, hence in one way only
(`isRanking_iff`).
-/

namespace ScanTriage

open SortedTable (Groups IsSorted)

/-! ## Sums modulo `2^64` -/

section WrappingSum

variable {β : Type} (f : β → Int64)

/-- What some items have of something, modulo `2^64`. -/
def wrappingSum (xs : List β) : Int64 := (xs.map f).sum

theorem wrappingSum_append (xs ys : List β) :
    wrappingSum f (xs ++ ys) = wrappingSum f xs + wrappingSum f ys := by
  rw [wrappingSum, List.map_append, List.sum_append]
  rfl

theorem wrappingSum_concat (xs : List β) (x : β) :
    wrappingSum f (xs ++ [x]) = wrappingSum f xs + f x := by
  rw [wrappingSum_append]
  simp [wrappingSum]

theorem wrappingSum_of_perm {xs ys : List β} (h : (xs.map f).Perm (ys.map f)) :
    wrappingSum f xs = wrappingSum f ys := by
  unfold wrappingSum
  generalize xs.map f = xs at h
  generalize ys.map f = ys at h
  induction h with
  | nil => rfl
  | cons x _ ih => rw [List.sum_cons, List.sum_cons, ih]
  | swap x y zs =>
    simp only [List.sum_cons]
    ac_rfl
  | trans _ _ ih ih' => exact ih.trans ih'

end WrappingSum

/-! ## Entries of an identifier -/

namespace IdQuality

/-- The statistics of the entries that some tables have under an identifier. -/
def ofEntries (entries : List (Bytes × IdCounts)) : IdQuality where
  reviewed := wrappingSum (·.2.total) entries
  confirmed := wrappingSum (·.2.confirmed) entries
  falsePositives := wrappingSum (·.2.falsePositives) entries
  needsReview := wrappingSum (·.2.needsReview) entries

/-- Each counter of one and of the other. -/
def plus (q q' : IdQuality) : IdQuality where
  reviewed := q.reviewed + q'.reviewed
  confirmed := q.confirmed + q'.confirmed
  falsePositives := q.falsePositives + q'.falsePositives
  needsReview := q.needsReview + q'.needsReview

theorem add_ofEntries (x : Bytes × IdCounts) (entries : List (Bytes × IdCounts)) :
    (ofEntries entries).add x.2 = ofEntries (entries ++ [x]) := by
  simp only [ofEntries, wrappingSum_concat]
  rfl

theorem ofEntries_append (entries entries' : List (Bytes × IdCounts)) :
    ofEntries (entries ++ entries') = (ofEntries entries).plus (ofEntries entries') := by
  simp only [ofEntries, wrappingSum_append]
  rfl

theorem ofEntries_perm {entries entries' : List (Bytes × IdCounts)}
    (h : entries.Perm entries') : ofEntries entries = ofEntries entries' := by
  simp only [ofEntries, wrappingSum_of_perm _ (h.map _)]

end IdQuality

namespace Quality

/-! ## What is gathered -/

/-- The overall confidences of the runs that have one. -/
def levelsOf (rs : List HistoryRecord) : List Bytes :=
  (rs.map (·.summary.confidence.label)).filter (!·.isEmpty)

theorem levelsOf_append (rs rs' : List HistoryRecord) :
    levelsOf (rs ++ rs') = levelsOf rs ++ levelsOf rs' := by
  rw [levelsOf, List.map_append, List.filter_append]
  rfl

theorem levelsOf_concat (rs : List HistoryRecord) (r : HistoryRecord) :
    levelsOf (rs ++ [r]) = levelsOf rs ++
      if r.summary.confidence.label.isEmpty then [] else [r.summary.confidence.label] := by
  rw [levelsOf_append]
  cases hlevel : r.summary.confidence.label.isEmpty <;> simp [levelsOf, hlevel]

/-- Statistics that add up some records. -/
structure Gathers (rs : List HistoryRecord) (q : Quality) : Prop where
  runs : q.runs = wrappingSum (fun _ => 1) rs
  nodup : q.reports.Nodup
  reports : ∀ path, path ∈ q.reports ↔ path ∈ rs.map (·.report)
  totalFindings : q.totalFindings = wrappingSum (·.totalFindings) rs
  reviewed : q.reviewed = wrappingSum (·.reviewed) rs
  confirmed : q.confirmed = wrappingSum (·.summary.confirmed) rs
  falsePositives : q.falsePositives = wrappingSum (·.summary.falsePositives) rs
  needsReview : q.needsReview = wrappingSum (·.summary.needsReview) rs
  levels : Groups id (wrappingSum fun _ => 1) (levelsOf rs) q.confidenceLevels
  byId : Groups Prod.fst IdQuality.ofEntries (rs.flatMap (·.byId)) q.byId

namespace Gathers

variable {rs rs' : List HistoryRecord} {q q' : Quality}

theorem empty : Gathers [] {} where
  runs := rfl
  nodup := .nil
  reports path := by simp
  totalFindings := rfl
  reviewed := rfl
  confirmed := rfl
  falsePositives := rfl
  needsReview := rfl
  levels := .nil _ _
  byId := .nil _ _

theorem add_level (h : q.Gathers rs) (r : HistoryRecord) :
    Groups id (wrappingSum fun _ => 1) (levelsOf (rs ++ [r])) (q.add r).confidenceLevels := by
  rw [levelsOf_concat, Quality.add]
  cases hlevel : r.summary.confidence.label.isEmpty with
  | true => simpa using h.levels
  | false => exact h.levels.update _ fun ys => (wrappingSum_concat _ ys _).symm

theorem add (h : q.Gathers rs) (r : HistoryRecord) : (q.add r).Gathers (rs ++ [r]) := by
  have hsum : ∀ (f : HistoryRecord → Int64) {n : Int64}, n = wrappingSum f rs →
      n + f r = wrappingSum f (rs ++ [r]) := by
    rintro f _ rfl
    exact (wrappingSum_concat f rs r).symm
  constructor
  case runs => exact hsum _ h.runs
  case nodup =>
    simp only [Quality.add]
    split
    · exact h.nodup
    · next hnew => exact List.nodup_cons.mpr ⟨by simpa using hnew, h.nodup⟩
  case reports =>
    intro path
    have hold := h.reports
    simp only [Quality.add, List.contains_eq_mem, decide_eq_true_eq]
    split <;> grind
  case totalFindings => exact hsum _ h.totalFindings
  case reviewed => exact hsum _ h.reviewed
  case confirmed => exact hsum _ h.confirmed
  case falsePositives => exact hsum _ h.falsePositives
  case needsReview => exact hsum _ h.needsReview
  case levels => exact h.add_level r
  case byId =>
    rw [List.flatMap_append, List.flatMap_singleton]
    exact h.byId.foldl_update_append (f := fun x q => q.add x.2) IdQuality.add_ofEntries r.byId

theorem ofRecords (rs : List HistoryRecord) : (Quality.ofRecords rs).Gathers rs := by
  induction rs using List.reverseRecOn with
  | nil => exact .empty
  | append_singleton rs r ih =>
    rw [Quality.ofRecords, List.foldl_append]
    exact ih.add r

theorem toFinset_reports (h : q.Gathers rs) :
    q.reports.toFinset = (rs.map (·.report)).toFinset := by
  ext path
  simp only [List.mem_toFinset, h.reports]

end Gathers

/-! ## Other orders -/

/-- Records that differ at most in the order in which the entries of their tables
are taken. -/
structure SameEntries (r r' : HistoryRecord) : Prop where
  fields : r' = { r with byId := r'.byId }
  entries : r.byId.Perm r'.byId

/-- The same records in some order, the entries of their tables in some order. -/
def Reordered (rs rs' : List HistoryRecord) : Prop :=
  ∃ moved, rs.Perm moved ∧ List.Forall₂ SameEntries moved rs'

/-- Statistics that differ at most in the order in which the reports were seen. -/
structure Same (q q' : Quality) : Prop where
  fields : q' = { q with reports := q'.reports }
  reports : q.reports.Perm q'.reports

section Reordered

variable {rs rs' : List HistoryRecord} {q q' : Quality}

theorem SameEntries.apply_eq {β : Type} {f : HistoryRecord → β}
    (hf : ∀ r table, f { r with byId := table } = f r) {r r' : HistoryRecord}
    (h : SameEntries r r') : f r' = f r := by
  rw [h.fields]
  exact hf r r'.byId

/-- What does not look at the tables is the same up to the order of the records. -/
theorem Reordered.map_perm {β : Type} {f : HistoryRecord → β}
    (hf : ∀ r table, f { r with byId := table } = f r) (h : Reordered rs rs') :
    (rs.map f).Perm (rs'.map f) := by
  obtain ⟨moved, hperm, hsame⟩ := h
  have hmap : moved.map f = rs'.map f := by
    clear hperm
    induction hsame with
    | nil => rfl
    | cons hr _ ih => rw [List.map_cons, List.map_cons, hr.apply_eq hf, ih]
  exact hmap ▸ hperm.map f

theorem Reordered.entries_perm (h : Reordered rs rs') :
    (rs.flatMap (·.byId)).Perm (rs'.flatMap (·.byId)) := by
  obtain ⟨moved, hperm, hsame⟩ := h
  refine (hperm.flatMap_right _).trans ?_
  clear hperm
  induction hsame with
  | nil => exact .refl _
  | cons hr _ ih =>
    rw [List.flatMap_cons, List.flatMap_cons]
    exact hr.entries.append ih

theorem Gathers.same (h : q.Gathers rs) (h' : q'.Gathers rs') (hrs : Reordered rs rs') :
    q.Same q' := by
  have hsum : ∀ f : HistoryRecord → Int64, (∀ r table, f { r with byId := table } = f r) →
      wrappingSum f rs' = wrappingSum f rs :=
    fun f hf => (wrappingSum_of_perm f (hrs.map_perm hf)).symm
  have hlevels : q.confidenceLevels = q'.confidenceLevels := by
    refine h.levels.eq_of_perm h'.levels (fun as bs has => wrappingSum_of_perm _ (has.map _)) ?_
    exact (hrs.map_perm fun _ _ => rfl).filter _
  have hbyId : q.byId = q'.byId :=
    h.byId.eq_of_perm h'.byId (fun _ _ => IdQuality.ofEntries_perm) hrs.entries_perm
  constructor
  case fields =>
    obtain ⟨⟩ := q'
    simp only [Quality.mk.injEq, true_and]
    exact ⟨h'.runs.trans ((hsum _ fun _ _ => rfl).trans h.runs.symm),
      h'.totalFindings.trans ((hsum _ fun _ _ => rfl).trans h.totalFindings.symm),
      h'.reviewed.trans ((hsum _ fun _ _ => rfl).trans h.reviewed.symm),
      h'.confirmed.trans ((hsum _ fun _ _ => rfl).trans h.confirmed.symm),
      h'.falsePositives.trans ((hsum _ fun _ _ => rfl).trans h.falsePositives.symm),
      h'.needsReview.trans ((hsum _ fun _ _ => rfl).trans h.needsReview.symm),
      hlevels.symm, hbyId.symm⟩
  case reports =>
    rw [List.perm_ext_iff_of_nodup h.nodup h'.nodup]
    intro path
    rw [h.reports, h'.reports, (hrs.map_perm fun _ _ => rfl).mem_iff]

theorem Same.toJson_eq (h : q.Same q') : q'.toJson = q.toJson := by
  rw [h.fields, toJson, toJson, h.reports.length_eq]
  rfl

theorem Same.statistics_eq (h : q.Same q') (top : Int64) :
    Cli.statistics top q' = Cli.statistics top q := by
  rw [h.fields, Cli.statistics, Cli.statistics, h.reports.length_eq]
  rfl

end Reordered

/-! ## Two parts -/

/-- Statistics that are put together from those of two parts. -/
structure IsSum (q q' whole : Quality) : Prop where
  runs : whole.runs = q.runs + q'.runs
  totalFindings : whole.totalFindings = q.totalFindings + q'.totalFindings
  reviewed : whole.reviewed = q.reviewed + q'.reviewed
  confirmed : whole.confirmed = q.confirmed + q'.confirmed
  falsePositives : whole.falsePositives = q.falsePositives + q'.falsePositives
  needsReview : whole.needsReview = q.needsReview + q'.needsReview
  levels : ∀ level, whole.confidenceLevels.lookup level =
    Option.merge (· + ·) (q.confidenceLevels.lookup level) (q'.confidenceLevels.lookup level)
  byId : ∀ id, whole.byId.lookup id =
    Option.merge IdQuality.plus (q.byId.lookup id) (q'.byId.lookup id)
  /-- A report that both parts have seen counts once. -/
  reports : whole.reports.length = (q.reports.toFinset ∪ q'.reports.toFinset).card

theorem Gathers.isSum {rs rs' : List HistoryRecord} {q q' whole : Quality} (h : q.Gathers rs)
    (h' : q'.Gathers rs') (hwhole : whole.Gathers (rs ++ rs')) : IsSum q q' whole where
  runs := by rw [hwhole.runs, wrappingSum_append, h.runs, h'.runs]
  totalFindings := by
    rw [hwhole.totalFindings, wrappingSum_append, h.totalFindings, h'.totalFindings]
  reviewed := by rw [hwhole.reviewed, wrappingSum_append, h.reviewed, h'.reviewed]
  confirmed := by rw [hwhole.confirmed, wrappingSum_append, h.confirmed, h'.confirmed]
  falsePositives := by
    rw [hwhole.falsePositives, wrappingSum_append, h.falsePositives, h'.falsePositives]
  needsReview := by rw [hwhole.needsReview, wrappingSum_append, h.needsReview, h'.needsReview]
  levels := h.levels.lookup_append h'.levels (levelsOf_append rs rs' ▸ hwhole.levels)
    (wrappingSum_append _)
  byId := h.byId.lookup_append h'.byId (List.flatMap_append ▸ hwhole.byId)
    IdQuality.ofEntries_append
  reports := by
    rw [← List.toFinset_card_of_nodup hwhole.nodup, hwhole.toFinset_reports, h.toFinset_reports,
      h'.toFinset_reports, List.map_append, List.toFinset_append]

/-! ## The ranking -/

def reviewedOf (q : Quality) (id : Bytes) : Int64 := ((q.byId.lookup id).getD {}).reviewed

/-- An identifier goes before another one. -/
def Precedes (q : Quality) (a b : Bytes) : Prop :=
  q.reviewedOf b < q.reviewedOf a ∨ q.reviewedOf a = q.reviewedOf b ∧ a < b

/-- All identifiers, each of which goes before the next one. -/
structure IsRanking (q : Quality) (ids : List Bytes) : Prop where
  nodup : ids.Nodup
  keys : ∀ id, id ∈ ids ↔ id ∈ q.byId.map Prod.fst
  ordered : ids.IsChain q.Precedes

section Ranking

variable {q : Quality} {a b c : Bytes}

theorem Precedes.trans (hab : q.Precedes a b) (hbc : q.Precedes b c) : q.Precedes a c := by
  rcases hab with hab | ⟨hab, hlt⟩ <;> rcases hbc with hbc | ⟨hbc, hlt'⟩
  · exact .inl (Int64.lt_trans hbc hab)
  · exact .inl (hbc ▸ hab)
  · exact .inl (hab ▸ hbc)
  · exact .inr ⟨hab.trans hbc, List.lt_trans hlt hlt'⟩

instance : Trans q.Precedes q.Precedes q.Precedes := ⟨Precedes.trans⟩

theorem Precedes.asymm (hab : q.Precedes a b) : ¬ q.Precedes b a := by
  intro hba
  rcases hab.trans hba with hlt | ⟨-, hlt⟩
  · exact Int64.lt_irrefl hlt
  · exact List.lt_irrefl a hlt

/-- An order of the identifiers in which each goes before the next is the only one. -/
theorem IsRanking.unique {ids ids' : List Bytes} (h : q.IsRanking ids) (h' : q.IsRanking ids') :
    ids = ids' := by
  have hperm : ids.Perm ids' := by
    rw [List.perm_ext_iff_of_nodup h.nodup h'.nodup]
    exact fun id => (h.keys id).trans (h'.keys id).symm
  have hordered : ids.Pairwise q.Precedes := List.isChain_iff_pairwise.mp h.ordered
  have hordered' : ids'.Pairwise q.Precedes := List.isChain_iff_pairwise.mp h'.ordered
  exact hperm.eq_of_pairwise (fun a b _ _ hab hba => absurd hba hab.asymm) hordered hordered'

theorem reviewedOf_eq (h : IsSorted q.byId) {x : Bytes × IdQuality} (hx : x ∈ q.byId) :
    q.reviewedOf x.1 = x.2.reviewed := by
  rw [reviewedOf, (SortedTable.lookup_eq_some_iff h).mpr hx]
  rfl

theorem ranking_perm (q : Quality) : q.ranking.Perm q.byId := List.mergeSort_perm _ _

theorem reviewed_le_trans (x y z : Bytes × IdQuality)
    (hxy : decide (y.2.reviewed ≤ x.2.reviewed) = true)
    (hyz : decide (z.2.reviewed ≤ y.2.reviewed) = true) :
    decide (z.2.reviewed ≤ x.2.reviewed) = true := by
  rw [decide_eq_true_eq] at *
  exact Int64.le_trans hyz hxy

theorem reviewed_le_total (x y : Bytes × IdQuality) :
    (decide (y.2.reviewed ≤ x.2.reviewed) || decide (x.2.reviewed ≤ y.2.reviewed)) = true := by
  simpa using Int64.le_total y.2.reviewed x.2.reviewed

/-- Identifiers with as many findings stay in the order of the table. -/
theorem filter_ranking (q : Quality) (n : Int64) :
    q.ranking.filter (·.2.reviewed == n) = q.byId.filter (·.2.reviewed == n) := by
  have hequal : (q.byId.filter (·.2.reviewed == n)).Pairwise fun x y =>
      decide (y.2.reviewed ≤ x.2.reviewed) = true := by
    refine List.pairwise_of_forall_mem_list fun x hx y hy => ?_
    simp only [List.mem_filter, beq_iff_eq] at hx hy
    simp [hx.2, hy.2]
  have hsub := (List.sublist_mergeSort reviewed_le_trans reviewed_le_total hequal
    List.filter_sublist).filter (·.2.reviewed == n)
  rw [List.filter_filter] at hsub
  simp only [Bool.and_self] at hsub
  exact (hsub.eq_of_length ((ranking_perm q).filter _).length_eq.symm).symm

/-- The most reviewed come first, and equals in the order of their names. -/
theorem pairwise_ranking (h : IsSorted q.byId) :
    q.ranking.Pairwise fun x y => q.Precedes x.1 y.1 := by
  rw [List.pairwise_iff_forall_sublist]
  intro x y hxy
  have hx : x ∈ q.byId := (ranking_perm q).mem_iff.mp (hxy.subset (by simp))
  have hy : y ∈ q.byId := (ranking_perm q).mem_iff.mp (hxy.subset (by simp))
  rw [Precedes, reviewedOf_eq h hx, reviewedOf_eq h hy]
  by_cases heq : x.2.reviewed = y.2.reviewed
  · have htable : [x, y].Sublist q.byId := by
      have hfilter := hxy.filter (·.2.reviewed == y.2.reviewed)
      rw [filter_ranking] at hfilter
      simpa [heq] using hfilter.trans List.filter_sublist
    exact .inr ⟨heq, by simpa using List.Pairwise.sublist htable h⟩
  · have hle : y.2.reviewed ≤ x.2.reviewed := by
      simpa using (List.pairwise_mergeSort reviewed_le_trans reviewed_le_total q.byId).sublist hxy
    exact .inl (Int64.lt_of_le_of_ne hle (Ne.symm heq))

theorem isRanking_ranking (h : IsSorted q.byId) : q.IsRanking (q.ranking.map Prod.fst) where
  nodup := ((ranking_perm q).map Prod.fst).nodup_iff.mpr h.nodup_keys
  keys _ := ((ranking_perm q).map Prod.fst).mem_iff
  ordered := List.isChain_iff_pairwise.mpr (List.pairwise_map.mpr (pairwise_ranking h))

theorem isRanking_iff (h : IsSorted q.byId) {ids : List Bytes} :
    q.IsRanking ids ↔ ids = q.ranking.map Prod.fst :=
  ⟨fun hids => hids.unique (isRanking_ranking h), fun hids => hids ▸ isRanking_ranking h⟩

end Ranking

/-! ## All records -/

/-- The statistics over some records are the same in every order of the records
and of the entries in their tables. They count each report once, are put together
from those over two parts, and rank the identifiers in the one way there is. -/
theorem ofRecords_orderless (rs : List HistoryRecord) :
    (∀ rs', Reordered rs rs' →
      (ofRecords rs).Same (ofRecords rs') ∧ (ofRecords rs').toJson = (ofRecords rs).toJson ∧
        ∀ top, Cli.statistics top (ofRecords rs') = Cli.statistics top (ofRecords rs)) ∧
    (ofRecords rs).reports.length = (rs.map (·.report)).toFinset.card ∧
    (∀ rs', IsSum (ofRecords rs) (ofRecords rs') (ofRecords (rs ++ rs'))) ∧
    ∀ ids, (ofRecords rs).IsRanking ids ↔ ids = (ofRecords rs).ranking.map Prod.fst := by
  have hall := Gathers.ofRecords rs
  refine ⟨fun rs' hrs => ?_, ?_, fun rs' => ?_, fun ids => isRanking_iff hall.byId.sorted⟩
  · have hsame := hall.same (.ofRecords rs') hrs
    exact ⟨hsame, hsame.toJson_eq, hsame.statistics_eq⟩
  · rw [← hall.toFinset_reports, List.toFinset_card_of_nodup hall.nodup]
  · exact hall.isSum (.ofRecords rs') (.ofRecords (rs ++ rs'))

/-- Two runs over one report whose findings of one identifier are too many to be
counted, with the entries of their tables in the order in which they are taken. -/
def overflowing (entries entries' : List (Bytes × IdCounts)) : List HistoryRecord :=
  [ { report := "/r/a.json", reviewed := Int64.maxValue, byId := entries },
    { report := "/r/a.json", reviewed := 3, byId := entries' } ]

theorem ofRecords_orderless_overflowing :
    let many : Bytes × IdCounts := ("many", { confirmed := Int64.maxValue })
    let more : Bytes × IdCounts := ("many", { needsReview := 1 })
    let first : Bytes × IdCounts := ("first", { falsePositives := 1 })
    let second : Bytes × IdCounts := ("second", { confirmed := 1 })
    let rs := overflowing [many, second] [first, more]
    let rs' := (overflowing [second, many] [more, first]).reverse
    Reordered rs rs' ∧ (ofRecords rs).Same (ofRecords rs') ∧
      (ofRecords rs').toJson = (ofRecords rs).toJson ∧ (ofRecords rs').reports.length = 1 ∧
      (ofRecords rs').reviewed = Int64.minValue + 2 ∧
      (ofRecords rs').ranking.map Prod.fst = ["first", "second", "many"] := by
  intro many more first second rs rs'
  have hreordered : Reordered rs rs' := by
    refine ⟨rs.reverse, rs.reverse_perm.symm, ?_⟩
    exact .cons ⟨rfl, .swap ..⟩ (.cons ⟨rfl, .swap ..⟩ .nil)
  obtain ⟨hsame, -⟩ := ofRecords_orderless rs
  obtain ⟨-, hreports, -, hranking⟩ := ofRecords_orderless rs'
  obtain ⟨hfields, hjson, -⟩ := hsame rs' hreordered
  refine ⟨hreordered, hfields, hjson, hreports.trans (by decide), by decide, ?_⟩
  refine ((hranking _).mp ⟨by decide, ?_, ?_⟩).symm
  · have hkeys : List.Perm (α := Bytes) ["first", "second", "many"]
        ((ofRecords rs').byId.map Prod.fst) := by decide
    exact fun id => hkeys.mem_iff
  · unfold Precedes
    decide

end Quality

end ScanTriage
