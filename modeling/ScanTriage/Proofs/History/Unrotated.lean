import ScanTriage.Proofs.FileSystem.Making
import ScanTriage.Proofs.History.Runs

/-!
# History without a bound

Without a positive bound nothing leaves the active file. Records that are appended
to a fresh state directory are read back, all of them and in their order
(`run_records_appendAll`). A line holds the run identifier and the timestamp
scrubbed, so that is how they come back.
-/

namespace ScanTriage

namespace HistoryRecord

/-- A record as its line holds it if its other texts are well-formed. -/
def scrubbed (r : HistoryRecord) : HistoryRecord :=
  { r with runId := Utf8.scrub r.runId, timestamp := Utf8.scrub r.timestamp }

/-- A line holds texts scrubbed, so it does not tell texts that are scrubbed to
the same. -/
theorem toLine_congr (r : HistoryRecord) {a a' b b' c c' : Bytes}
    (ha : Utf8.scrub a = Utf8.scrub a') (hb : Utf8.scrub b = Utf8.scrub b')
    (hc : Utf8.scrub c = Utf8.scrub c') :
    ({ r with runId := a, timestamp := b, report := c } : HistoryRecord).toLine =
      ({ r with runId := a', timestamp := b', report := c' } : HistoryRecord).toLine := by
  have hstring : ∀ {s s' : Bytes}, Utf8.scrub s = Utf8.scrub s' →
      Json.writeString true s = Json.writeString true s' := by
    intro s s' h
    rw [← Json.writeString_scrub, h, Json.writeString_scrub]
  have hwrite : ∀ rest : List (Option (Bytes × Json)),
      (Json.record (some ("run_id", .string a) :: some ("timestamp", .string b) ::
        some ("report", .string c) :: rest)).write true =
      (Json.record (some ("run_id", .string a') :: some ("timestamp", .string b') ::
        some ("report", .string c') :: rest)).write true := by
    intro rest
    simp [Json.record, Json.write, Json.writeMembers_eq, Json.writeMember, hstring ha, hstring hb,
      hstring hc]
  exact hwrite _

theorem toLine_scrubbed (r : HistoryRecord) : r.scrubbed.toLine = r.toLine :=
  r.toLine_congr (Utf8.scrub_scrub _) (Utf8.scrub_scrub _) rfl

end HistoryRecord

namespace History

open ScanTriage.Tree (HasRoom)

variable {t t' t₀ : Tree} {dir : Bytes} {place : NodePath} {c : Bytes → Option Node}
  {volumes : List Volume} {active rs : List HistoryRecord} {runs : List Run} {r : HistoryRecord}
  {m : Int64}

/-- An append depends on the line of its record only. -/
theorem append_congr {r r' : HistoryRecord} (h : r.toLine = r'.toLine) (dir : Bytes) (m : Int64) :
    append dir r m = append dir r' m := by
  unfold append
  rw [h]

theorem append_scrubbed (dir : Bytes) (r : HistoryRecord) (m : Int64) :
    append dir r.scrubbed m = append dir r m :=
  append_congr r.toLine_scrubbed dir m

theorem appendAll_scrubbed (dir : Bytes) (rs : List HistoryRecord) (m : Int64) :
    appendAll dir ((rs.map HistoryRecord.scrubbed).map (·, m)) = appendAll dir (rs.map (·, m)) := by
  induction rs with
  | nil => rfl
  | cons r rs ih =>
    simp only [List.map_cons, appendAll]
    rw [append_scrubbed, ih]

/-! ## One append after the other -/

/-- An append without a positive bound adds its record to the active file. -/
theorem Kept.step_unbounded (h : Kept t₀ dir runs t place c volumes active)
    (hnumbers : ∀ v ∈ volumes, v.1.number < Int64.maxValue) (hr : r.IsStorable) (hm : m ≤ 0) :
    ∃ t' c', Kept t₀ dir (runs ++ [(r, m)]) t' place c' volumes (active ++ [r]) := by
  obtain ⟨t₁, c₁, hshelf, hwhole, hgrows, ⟨hrun, -⟩ | ⟨hpositive, -⟩⟩ :=
    h.shelf.run_append h.whole (orderly_of_few h.few) hnumbers hr m
  · exact ⟨t₁, c₁, h.added hr hrun hshelf hwhole hgrows⟩
  · exact absurd hpositive (Int64.not_lt.mpr hm)

/-- Appends without a positive bound leave no archives. -/
theorem Kept.run_unbounded (h : Kept t₀ dir [] t₀ place c [] []) (hm : m ≤ 0)
    (hstorable : ∀ r ∈ rs, r.IsStorable) :
    ∃ t c, Kept t₀ dir (rs.map (·, m)) t place c [] rs := by
  induction rs using List.reverseRecOn with
  | nil => exact ⟨t₀, c, h⟩
  | append_singleton rs r ih =>
    rw [List.forall_mem_append] at hstorable
    obtain ⟨t, c, hkept⟩ := ih hstorable.1
    rw [List.map_append]
    exact hkept.step_unbounded (by simp) (hstorable.2 r List.mem_cons_self) hm

/-! ## From a fresh directory on -/

/-- A state directory that is empty, or missing with nothing in the way of it. -/
def IsFresh (t : Tree) (dir : Bytes) : Prop :=
  ∃ t', t.run (.makeDirectories dir) = (.ok (), t') ∧ t'.listAt dir = .ok []

theorem IsFresh.run_records (hproper : t.IsProper) (hfresh : IsFresh t dir)
    (hroom : HasRoom dir fileName) : t.run (records dir) = (.ok [], t) := by
  obtain ⟨t', hmade, hempty⟩ := hfresh
  rcases Tree.eq_or_lookup_of_made hmade (Tree.isDirectory_of_listAt hempty) with rfl | hmissing
  · obtain ⟨place, c, hfirst⟩ := Kept.empty hproper hempty hroom
    exact hfirst.run_records
  · rw [run_records_eq, recordsAt, archivesAt, hmissing]
    rfl

/-- Records are read back as they were appended. -/
theorem IsFresh.run_records_appendAll (hproper : t.IsProper) (hfresh : IsFresh t dir)
    (hroom : HasRoom dir fileName) (hm : m ≤ 0)
    (hstorable : ∀ r ∈ rs, r.scrubbed.IsStorable) :
    ∃ t', t.run (appendAll dir (rs.map (·, m))) = (.ok (), t') ∧
      t'.run (records dir) = (.ok (rs.map HistoryRecord.scrubbed), t') := by
  rcases List.eq_nil_or_concat rs with rfl | ⟨front, last, hconcat⟩
  · exact ⟨t, rfl, hfresh.run_records hproper hroom⟩
  obtain ⟨t₁, hmade, hempty⟩ := hfresh
  have hproper₁ : t₁.IsProper := by
    have hmade' := hproper.makeDirectories dir
    rwa [hmade] at hmade'
  obtain ⟨place, c, hfirst⟩ := Kept.empty hproper₁ hempty hroom
  have hall : ∀ r ∈ rs.map HistoryRecord.scrubbed, r.IsStorable :=
    List.forall_mem_map.mpr hstorable
  obtain ⟨t', c', hkept⟩ := hfirst.run_unbounded hm hall
  refine ⟨t', ?_, hkept.run_records⟩
  rw [run_appendAll_of_made hmade (Tree.isDirectory_of_listAt hempty) (by simp [hconcat]),
    ← appendAll_scrubbed]
  exact hkept.reached

end History

end ScanTriage
