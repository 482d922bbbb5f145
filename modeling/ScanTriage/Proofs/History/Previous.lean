import ScanTriage.Proofs.History.Unrotated

/-!
# The previous run of a report

A record that was appended last under its report is found again, after any
rotations, as long as no archive is pruned (`previous_recorded`). A line holds the
path of the report scrubbed. So no record is ever found under a path that is not
well-formed, and records of two paths that are scrubbed to the same stand for the
same report.
-/

namespace ScanTriage

namespace HistoryRecord

variable {r : HistoryRecord}

/-- A record as its line holds it if its texts other than the path of the report
are well-formed. -/
def stored (r : HistoryRecord) : HistoryRecord := { r with report := Utf8.scrub r.report }

@[simp] theorem report_stored (r : HistoryRecord) : r.stored.report = Utf8.scrub r.report := rfl

theorem toLine_stored (r : HistoryRecord) : r.stored.toLine = r.toLine :=
  r.toLine_congr rfl rfl (Utf8.scrub_scrub _)

theorem stored_of_isValid (h : Utf8.isValid r.report = true) : r.stored = r := by
  rw [stored, Utf8.scrub_of_isValid h]

end HistoryRecord

namespace History

open ScanTriage.Tree (HasRoom)

variable {t t' t₀ : Tree} {dir : Bytes} {place : NodePath} {c : Bytes → Option Node}
  {volumes : List Volume} {active : List HistoryRecord} {runs later : List Run} {r : HistoryRecord}
  {m : Int64}

def Run.stored (x : Run) : Run := (x.1.stored, x.2)

theorem appendAll_stored (dir : Bytes) (runs : List Run) :
    appendAll dir (runs.map Run.stored) = appendAll dir runs := by
  induction runs with
  | nil => rfl
  | cons x runs ih =>
    have hfirst : append dir x.1.stored x.2 = append dir x.1 x.2 :=
      append_congr x.1.toLine_stored dir x.2
    simp only [List.map_cons, Run.stored, appendAll]
    rw [hfirst, ← ih]

/-- An append that succeeds has room for its file. -/
theorem hasRoom_of_append (h : t.Folder dir place c) (hok : t.run (append dir r m) = (.ok (), t')) :
    HasRoom dir fileName := by
  by_contra hroom
  have hdir : t.isDirectory dir = true :=
    Tree.isDirectory_iff.mpr ⟨place, h.opens.leads, h.opens.isDirectoryAt⟩
  obtain ⟨fault, hedit⟩ := h.editAt_of_not_accepts isName_fileName (fun haccepts => hroom haccepts.1)
    0o644 (· ++ recordLine r)
  have hmade := Tree.run_makeDirectories_of_isDirectory hdir
  have hrun : t.run (append dir r m) = _ := (Tree.run_task_ok (Tree.run_orTell_ok hmade) _).trans
    (Tree.run_task_error (Tree.run_orTell_error (p := .perform (.append ..))
      (congrArg (fun x => (x.1.map fun _ => (), x.2)) hedit)) _)
  rw [hrun] at hok
  cases hok

/-! ## Runs that prune nothing -/

/-- No archive that is listed after `runs` or in the course of `later` is gone
after the next run. -/
def Unpruned (t : Tree) (dir : Bytes) : (runs later : List Run) → Prop
  | _, [] => True
  | runs, x :: later =>
    (∀ a, Listed t dir runs a → Listed t dir (runs ++ [x]) a) ∧ Unpruned t dir (runs ++ [x]) later

/-- Runs that succeed keep everything but what is in pruned archives. -/
theorem Kept.extend (h : Kept t₀ dir runs t place c volumes active)
    (hcount : runs.length + later.length < 2 ^ 63) (hstorable : ∀ x ∈ later, x.1.IsStorable)
    (hok : t.run (appendAll dir later) = (.ok (), t')) :
    ∃ c' volumes' active', Kept t₀ dir (runs ++ later) t' place c' volumes' active' ∧
      (Unpruned t₀ dir runs later →
        recordsOf volumes' ++ active' = recordsOf volumes ++ active ++ later.map Prod.fst) := by
  induction later generalizing runs t c volumes active with
  | nil =>
    obtain rfl : t = t' := congrArg Prod.snd hok
    refine ⟨c, volumes, active, ?_, fun _ => (List.append_nil _).symm⟩
    rwa [List.append_nil]
  | cons x later ih =>
    obtain ⟨hx, hstorable⟩ := List.forall_mem_cons.mp hstorable
    rw [List.length_cons] at hcount
    obtain ⟨t₁, hfirst, hok⟩ := exists_run_appendAll_cons hok
    obtain ⟨c₁, volumes₁, active₁, hkept, -, -, hrecords⟩ := h.step_of_ok (by omega) hx hfirst
    obtain ⟨c', volumes', active', hkept', hall⟩ := ih hkept
      (by rw [List.length_append, List.length_singleton]; omega) hstorable hok
    refine ⟨c', volumes', active', by simpa using hkept', fun hunpruned => ?_⟩
    rcases hrecords with hrecords | ⟨v, hv, hbelow⟩
    · rw [hall hunpruned.2, hrecords]
      simp
    · -- The pruned archive was listed, so it would still be there, above itself.
      obtain ⟨found, hfound, hmem⟩ := hunpruned.1 v.1 (h.listed hv)
      rw [hkept.reached, hkept.run_archives] at hfound
      cases hfound
      obtain ⟨w, hw, hwv⟩ := List.mem_map.mp hmem
      exact absurd (hwv ▸ hbelow w hw) Int64.lt_irrefl

/-- Every record that is left is one of those that were appended. -/
theorem Kept.forall_mem_records (h : Kept t₀ dir runs t place c volumes active)
    {p : HistoryRecord → Prop} (hp : ∀ x ∈ runs, p x.1) :
    ∀ x ∈ recordsOf volumes ++ active, p x := by
  intro x hx
  obtain ⟨y, hy, rfl⟩ := List.mem_map.mp (h.suffix.subset hx)
  exact hp y hy

/-- After runs that succeed, the records end with that of `r` and those of the
runs behind it. -/
theorem Kept.run_recorded (h : Kept t₀ dir [] t₀ place c [] [])
    (hcount : runs.length + 1 + later.length < 2 ^ 63)
    (hstorable : ∀ x ∈ runs ++ (r, m) :: later, x.1.IsStorable)
    (hok : t₀.run (appendAll dir (runs ++ (r, m) :: later)) = (.ok (), t'))
    (hunpruned : Unpruned t₀ dir (runs ++ [(r, m)]) later) :
    ∃ front, t'.run (records dir) = (.ok (front ++ r :: later.map Prod.fst), t') ∧
      ∀ x ∈ front, x.IsStorable := by
  rw [List.forall_mem_append, List.forall_mem_cons] at hstorable
  obtain ⟨hruns, hr, hlater⟩ := hstorable
  obtain ⟨t₁, hok₁, hok⟩ := exists_run_appendAll hok
  obtain ⟨t₂, hok₂, hok⟩ := exists_run_appendAll_cons hok
  obtain ⟨c₁, volumes₁, active₁, h₁, -⟩ := h.extend (by rw [List.length_nil]; omega) hruns hok₁
  rw [List.nil_append] at h₁
  obtain ⟨c₂, volumes₂, active₂, h₂, hlast, -⟩ := h₁.step_of_ok (by omega) hr hok₂
  obtain ⟨c', volumes', active', h', hrecords⟩ :=
    h₂.extend (by rw [List.length_append, List.length_singleton]; omega) hlater hok
  obtain ⟨front, rfl⟩ := List.getLast?_eq_some_iff.mp hlast
  have hall : ∀ x ∈ recordsOf volumes₂ ++ (front ++ [r]), x.IsStorable :=
    h₂.forall_mem_records (List.forall_mem_append.mpr ⟨hruns, by simpa using hr⟩)
  refine ⟨recordsOf volumes₂ ++ front, ?_, fun x hx => hall x ?_⟩
  · rw [h'.run_records, hrecords hunpruned]
    simp
  · rw [← List.append_assoc]
    exact List.mem_append_left _ hx

/-! ## From a fresh directory on -/

/-- Where runs succeed, nothing stands in the way of the history in a directory
that was fresh. -/
theorem IsFresh.exists_kept (hproper : t.IsProper) (hfresh : IsFresh t dir) (hne : runs ≠ [])
    (hok : t.run (appendAll dir runs) = (.ok (), t')) :
    ∃ t₁ place c, t.run (.makeDirectories dir) = (.ok (), t₁) ∧ t₁.isDirectory dir = true ∧
      Kept t₁ dir [] t₁ place c [] [] := by
  obtain ⟨t₁, hmade, hempty⟩ := hfresh
  have hdir := Tree.isDirectory_of_listAt hempty
  have hproper₁ : t₁.IsProper := by
    have hmade' := hproper.makeDirectories dir
    rwa [hmade] at hmade'
  have hroom : HasRoom dir fileName := by
    obtain ⟨place, c, hfolder⟩ := hproper₁.folder hdir
    rw [run_appendAll_of_made hmade hdir hne] at hok
    obtain ⟨x, rest, rfl⟩ := List.exists_cons_of_ne_nil hne
    obtain ⟨t₂, hfirst, -⟩ := exists_run_appendAll_cons hok
    exact hasRoom_of_append hfolder hfirst
  obtain ⟨place, c, hkept⟩ := Kept.empty hproper₁ hempty hroom
  exact ⟨t₁, place, c, hmade, hdir, hkept⟩

/-- It does not matter when the directory is made, nor how a line spells a record. -/
theorem listed_iff {t₁ : Tree} (hmade : t.run (.makeDirectories dir) = (.ok (), t₁))
    (hdir : t₁.isDirectory dir = true) (hne : runs ≠ []) (a : Archive) :
    Listed t dir runs a ↔ Listed t₁ dir (runs.map Run.stored) a := by
  rw [Listed, Listed, appendAll_stored, run_appendAll_of_made hmade hdir hne]

theorem Unpruned.stored {t₁ : Tree} (hmade : t.run (.makeDirectories dir) = (.ok (), t₁))
    (hdir : t₁.isDirectory dir = true) (hne : runs ≠ []) (h : Unpruned t dir runs later) :
    Unpruned t₁ dir (runs.map Run.stored) (later.map Run.stored) := by
  induction later generalizing runs with
  | nil => trivial
  | cons x later ih =>
    obtain ⟨hfirst, hlater⟩ := h
    have hstored : runs.map Run.stored ++ [x.stored] = (runs ++ [x]).map Run.stored := by simp
    refine ⟨fun a ha => ?_, ?_⟩
    · rw [hstored, ← listed_iff hmade hdir (by simp)]
      exact hfirst a ((listed_iff hmade hdir hne a).mpr ha)
    · rw [hstored]
      exact ih (by simp) hlater

/-- Runs that all succeed, with any records and bounds and from a fresh directory
on: first `runs`, then that of `r`, and `later` ones that prune nothing. -/
structure Recorded (t : Tree) (dir : Bytes) (runs : List Run) (r : HistoryRecord) (m : Int64)
    (later : List Run) (t' : Tree) : Prop where
  proper : t.IsProper
  fresh : IsFresh t dir
  countable : runs.length + 1 + later.length < 2 ^ 63
  storable : ∀ x ∈ runs ++ (r, m) :: later, x.1.stored.IsStorable
  succeeds : t.run (appendAll dir (runs ++ (r, m) :: later)) = (.ok (), t')
  unpruned : Unpruned t dir (runs ++ [(r, m)]) later

theorem Recorded.run_records (h : Recorded t dir runs r m later t') :
    ∃ front, t'.run (records dir) =
        (.ok (front ++ r.stored :: later.map fun x => x.1.stored), t') ∧
      ∀ x ∈ front, x.IsStorable := by
  have hne : runs ++ (r, m) :: later ≠ [] := by simp
  have hmap : (runs ++ (r, m) :: later).map Run.stored =
      runs.map Run.stored ++ (r.stored, m) :: later.map Run.stored := by
    rw [List.map_append]
    rfl
  obtain ⟨t₁, place, c, hmade, hdir, hkept⟩ := h.fresh.exists_kept h.proper hne h.succeeds
  have hunpruned := h.unpruned.stored hmade hdir (by simp)
  rw [List.map_append] at hunpruned
  have hok : t₁.run (appendAll dir
      (runs.map Run.stored ++ (r.stored, m) :: later.map Run.stored)) = (.ok (), t') := by
    rw [← hmap, appendAll_stored, ← run_appendAll_of_made hmade hdir hne]
    exact h.succeeds
  have hall : ∀ x ∈ runs.map Run.stored ++ (r.stored, m) :: later.map Run.stored,
      x.1.IsStorable := by
    rw [← hmap]
    exact List.forall_mem_map.mpr h.storable
  obtain ⟨front, hrun, hfront⟩ :=
    hkept.run_recorded (by simpa using h.countable) hall hok hunpruned
  rw [List.map_map] at hrun
  exact ⟨front, hrun, hfront⟩

/-! ## Looking up a report -/

theorem latestFor?_append_cons {report : Bytes} {front back : List HistoryRecord}
    (hr : r.report = report) (hback : ∀ x ∈ back, x.report ≠ report) :
    latestFor? report (front ++ r :: back) = some r := by
  have hnone : back.reverse.find? (·.report == report) = none := by
    simpa using hback
  simp [latestFor?, hnone, hr]

theorem latestFor?_eq_none {report : Bytes} {records : List HistoryRecord}
    (h : ∀ x ∈ records, x.report ≠ report) : latestFor? report records = none := by
  simpa [latestFor?] using h

theorem run_previous {records : List HistoryRecord} (report : Bytes)
    (h : t.run (History.records dir) = (.ok records, t)) :
    t.run (previous dir report) = (.ok (latestFor? report records), t) :=
  Tree.run_task_ok h _

/-- A record is found under the scrubbed path of its report. -/
theorem Recorded.run_previous_scrub (h : Recorded t dir runs r m later t')
    (hother : ∀ x ∈ later, Utf8.scrub x.1.report ≠ Utf8.scrub r.report) :
    t'.run (previous dir (Utf8.scrub r.report)) = (.ok (some r.stored), t') := by
  obtain ⟨front, hrun, -⟩ := h.run_records
  have hback : ∀ x ∈ later.map (fun x : Run => x.1.stored), x.report ≠ Utf8.scrub r.report :=
    List.forall_mem_map.mpr hother
  rw [run_previous _ hrun, latestFor?_append_cons r.report_stored hback]

/-- Under a path that is not well-formed nothing is found: what is read back is
well-formed. -/
theorem Recorded.run_previous_invalid (h : Recorded t dir runs r m later t')
    (hinvalid : Utf8.isValid r.report = false) :
    t'.run (previous dir r.report) = (.ok none, t') := by
  obtain ⟨front, hrun, hfront⟩ := h.run_records
  have hnot : ∀ {x : HistoryRecord}, Utf8.isValid x.report = true → x.report ≠ r.report := by
    rintro x hx heq
    rw [heq, hinvalid] at hx
    cases hx
  rw [run_previous _ hrun, latestFor?_eq_none]
  rw [List.forall_mem_append, List.forall_mem_cons, List.forall_mem_map]
  exact ⟨fun x hx => hnot (hfront x hx).report, hnot (Utf8.isValid_scrub _),
    fun x _ => hnot (Utf8.isValid_scrub _)⟩

/-- The previous run of a report is found: the record `r` is the one found under
its report, if the path is well-formed and no later record is stored under it. A
record of a path that is not well-formed is never found under that path; it is
found under the scrubbed path, before the earlier records of that path. -/
theorem previous_recorded (runs : List Run) (r : HistoryRecord) (m : Int64) (later : List Run)
    (h : Recorded t dir runs r m later t') :
    ((∀ x ∈ later, Utf8.scrub x.1.report ≠ Utf8.scrub r.report) →
      (Utf8.isValid r.report = true → t'.run (previous dir r.report) = (.ok (some r), t')) ∧
      t'.run (previous dir (Utf8.scrub r.report)) = (.ok (some r.stored), t')) ∧
    (Utf8.isValid r.report = false → t'.run (previous dir r.report) = (.ok none, t')) := by
  refine ⟨fun hother => ?_, h.run_previous_invalid⟩
  have hfound := h.run_previous_scrub hother
  refine ⟨fun hvalid => ?_, hfound⟩
  rwa [Utf8.scrub_of_isValid hvalid, HistoryRecord.stored_of_isValid hvalid] at hfound

/-! ## Computing -/

def appendAllAt (t : Tree) (dir : Bytes) : List Run → Except Fault Unit × Tree
  | [] => (.ok (), t)
  | (r, m) :: later =>
    match appendAt t dir r m with
    | (.error fault, t₁) => (.error fault, t₁)
    | (.ok _, t₁) => appendAllAt t₁ dir later

theorem run_appendAll_eq_at (t : Tree) (dir : Bytes) (runs : List Run) :
    t.run (appendAll dir runs) = appendAllAt t dir runs := by
  induction runs generalizing t with
  | nil => rfl
  | cons x runs ih =>
    refine (Tree.run_task_bind (append dir x.1 x.2) _ t).trans ?_
    rw [run_append_eq_at]
    unfold appendAllAt
    rcases appendAt t dir x.1 x.2 with ⟨fault | _, t₁⟩
    · rfl
    · exact ih t₁

/-- The archives that are listed after some runs. -/
def listedAt (t : Tree) (dir : Bytes) (runs : List Run) : List Archive :=
  match archivesAt (appendAllAt t dir runs).2 dir with
  | .ok found => found
  | .error _ => []

theorem listed_iff_mem {a : Archive} : Listed t dir runs a ↔ a ∈ listedAt t dir runs := by
  rw [Listed, run_appendAll_eq_at, run_archives_eq, listedAt]
  cases archivesAt (appendAllAt t dir runs).2 dir with
  | ok found => simp
  | error fault => simp

instance decidableUnpruned (t : Tree) (dir : Bytes) :
    (runs later : List Run) → Decidable (Unpruned t dir runs later)
  | _, [] => .isTrue trivial
  | runs, x :: later =>
    have := decidableUnpruned t dir (runs ++ [x]) later
    decidable_of_iff ((∀ a ∈ listedAt t dir runs, a ∈ listedAt t dir (runs ++ [x])) ∧
      Unpruned t dir (runs ++ [x]) later) (by simp only [Unpruned, listed_iff_mem])

theorem recorded_of_computed (hcount : runs.length + 1 + later.length < 2 ^ 63)
    (hstorable : ∀ x ∈ runs ++ (r, m) :: later, x.1.stored.IsStorable)
    (hanswer : (appendAllAt {} "s" (runs ++ (r, m) :: later)).1 = .ok ())
    (hunpruned : Unpruned {} "s" (runs ++ [(r, m)]) later) :
    Recorded {} "s" runs r m later (appendAllAt {} "s" (runs ++ (r, m) :: later)).2 := by
  have hmade : Tree.run (.makeDirectories "s") {} =
      (.ok (), (Tree.run (.makeDirectories "s") {}).2) := Prod.ext (by decide +kernel) rfl
  refine ⟨Tree.isProper_of_root (by decide) rfl, ⟨_, hmade, by decide +kernel⟩, hcount, hstorable,
    ?_, hunpruned⟩
  rw [run_appendAll_eq_at, ← hanswer]

/-- Records of other reports before and after it, of well-formed paths and not; the
first one after it moves it into an archive. -/
theorem previous_recorded_moved :
    let before : List Run :=
      [({ runId := "a", report := "/w/b" }, 1), ({ runId := "b", report := [0x2F, 0xFF] }, 1)]
    let r : HistoryRecord := { runId := "r", report := "/w/a", summary := { confirmed := 2 } }
    let later : List Run :=
      [({ runId := "c", report := "/w/b" }, 1), ({ runId := "d", report := [0x2F, 0xFE] }, 0)]
    ∃ t', Recorded {} "s" before r 1 later t' ∧
      (∀ x ∈ later, Utf8.scrub x.1.report ≠ Utf8.scrub r.report) ∧
      Utf8.isValid r.report = true ∧ t'.run (previous "s" r.report) = (.ok (some r), t') := by
  intro before r later
  have h : Recorded {} "s" before r 1 later _ :=
    recorded_of_computed (by simp [before, later]) (by decide +kernel) (by decide +kernel)
      (by decide +kernel)
  have hother : ∀ x ∈ later, Utf8.scrub x.1.report ≠ Utf8.scrub r.report := by decide +kernel
  have hvalid : Utf8.isValid r.report = true := by decide
  exact ⟨_, h, hother, hvalid, ((previous_recorded before r 1 later h).1 hother).1 hvalid⟩

/-- The record of a path with a stray byte is not found under it; and it is found
instead of the record of the path that has U+FFFD in its place, although that is
another report. -/
theorem previous_loses_path :
    let stray : HistoryRecord := { runId := "x", report := ("/w/a" : Bytes) ++ 0xFF :: (".json" : Bytes) }
    let replaced : HistoryRecord := { runId := "r", report := "/w/a\ufffd.json" }
    (∃ t', Recorded {} "s" [] stray 1000 [] t' ∧
      t'.run (previous "s" stray.report) = (.ok none, t')) ∧
    stray.report ≠ replaced.report ∧
    ∃ t', Recorded {} "s" [] replaced 1000 [(stray, 1000)] t' ∧
      ∃ found, t'.run (previous "s" replaced.report) = (.ok (some found), t') ∧
        found.runId ≠ replaced.runId := by
  intro stray replaced
  have hstray : stray.stored.IsStorable := by decide +kernel
  have hreplaced : replaced.stored.IsStorable := by decide +kernel
  have halone : Recorded {} "s" [] stray 1000 [] _ :=
    recorded_of_computed (by simp) (by simpa using hstray) (by decide +kernel) trivial
  -- The runs of both records, seen from the first and from the last of them.
  have hboth : (appendAllAt {} "s" [(replaced, 1000), (stray, 1000)]).1 = .ok () := by
    decide +kernel
  have hfirst : Recorded {} "s" [] replaced 1000 [(stray, 1000)] _ :=
    recorded_of_computed (by simp) (by simpa using ⟨hreplaced, hstray⟩) hboth (by decide +kernel)
  have hlast : Recorded {} "s" [(replaced, 1000)] stray 1000 [] _ :=
    recorded_of_computed (by simp) (by simpa using ⟨hreplaced, hstray⟩) hboth trivial
  have hpath : Utf8.scrub stray.report = replaced.report := by decide +kernel
  have hfound := hlast.run_previous_scrub nofun
  rw [hpath] at hfound
  exact ⟨⟨_, halone, halone.run_previous_invalid (by decide)⟩, by decide,
    ⟨_, hfirst, stray.stored, hfound, by decide⟩⟩

end History

end ScanTriage
