import ScanTriage.Proofs.FileSystem.Run
import ScanTriage.Proofs.Gzip
import ScanTriage.Proofs.History.Archives
import ScanTriage.Proofs.History.Lines

/-!
# The shelf of a history

What a state directory holds, as the history sees it: volumes in the order of
their numbers and the lines of the active file. Reading the records gives those
of the volumes and of the lines (`Shelf.run_records`), and every directory whose
records can be read has a shelf (`exists_shelf`).
-/

namespace ScanTriage

namespace History

open ScanTriage.Path (IsName)
open ScanTriage.Tree (HasRoom)

variable {t t' : Tree} {dir name : Bytes} {place : NodePath} {c c' : Bytes → Option Node}

/-- An archive with the records in it. -/
abbrev Volume := Archive × List HistoryRecord

def ActiveLines (c : Bytes → Option Node) (lines : List Bytes) : Prop :=
  c fileName = none ∧ lines = [] ∨
    ∃ id text mode, c fileName = some (.file id text mode) ∧ lines? text = some lines

/-- The archive can be read and holds the records. -/
def Holds (t : Tree) (v : Volume) : Prop :=
  ∃ packed, t.readAt v.1.path = .ok packed ∧ parseArchive packed = .ok v.2

/-- What a state directory holds. -/
structure Shelf (t : Tree) (dir : Bytes) (place : NodePath) (c : Bytes → Option Node)
    (volumes : List Volume) (lines : List Bytes) : Prop where
  folder : t.Folder dir place c
  sensible : ∀ e ∈ t.entries place, Entry.of e ≠ .overlapping
  ranked : Ranked (archivesIn t dir place) (volumes.map Prod.fst)
  held : ∀ v ∈ volumes, Holds t v
  room : HasRoom dir fileName
  active : ActiveLines c lines

/-- Archives are few or have different numbers, so that their order is sure. -/
def Orderly (found : List Archive) : Prop :=
  found.length ≤ Quicksort.maxInsertion ∨ (found.map (·.number)).Nodup

theorem Orderly.of_perm {found found' : List Archive} (h : Orderly found)
    (hperm : found'.Perm found) : Orderly found' :=
  h.imp (fun h => hperm.length_eq ▸ h) fun h => (hperm.map _).nodup_iff.mpr h

theorem Orderly.of_sublist {found found' : List Archive} (h : Orderly found)
    (hsub : found'.Sublist found) : Orderly found' :=
  h.imp hsub.length_le.trans fun h => h.sublist (hsub.map _)

def recordsOf (volumes : List Volume) : List HistoryRecord := volumes.flatMap Prod.snd

theorem recordsOf_append (a b : List Volume) : recordsOf (a ++ b) = recordsOf a ++ recordsOf b :=
  List.flatMap_append

/-! ## Reading archives -/

theorem run_read {message path data : Bytes} (h : t.readAt path = .ok data) :
    t.run (FileTask.orTell message (.perform (.read path))) = (.ok data, t) :=
  Tree.run_orTell_ok (congrArg (·, t) h)

theorem run_read_error {message path : Bytes} {fault : FileFault}
    (h : t.readAt path = .error fault) : t.run (FileTask.orTell message (.perform (.read path))) =
      (.error (.user message fault.toFault), t) :=
  Tree.run_orTell_error (congrArg (·, t) h)

theorem run_readArchives {volumes : List Volume} (h : ∀ v ∈ volumes, Holds t v) :
    t.run (readArchives (volumes.map Prod.fst)) = (.ok (recordsOf volumes), t) := by
  induction volumes with
  | nil => rfl
  | cons v volumes ih =>
    rw [List.forall_mem_cons] at h
    obtain ⟨packed, hread, hparse⟩ := h.1
    refine (Tree.run_task_ok (run_read hread) _).trans ?_
    rw [hparse]
    refine (Tree.run_task_ok (a := v.2) rfl _).trans ?_
    exact Tree.run_task_ok (ih h.2) _

/-- Archives that are read hold the records that are found in them. -/
theorem holds_of_readArchives {found : List Archive} {rs : List HistoryRecord}
    (h : (t.run (readArchives found)).1 = .ok rs) :
    ∃ volumes : List Volume, volumes.map Prod.fst = found ∧ (∀ v ∈ volumes, Holds t v) ∧
      rs = recordsOf volumes := by
  induction found generalizing rs with
  | nil =>
    cases h
    exact ⟨[], rfl, nofun, rfl⟩
  | cons a found ih =>
    cases hread : t.readAt a.path with
    | error fault =>
      have hrun : t.run (readArchives (a :: found)) = (.error _, t) :=
        Tree.run_task_error (run_read_error hread) _
      rw [hrun] at h
      cases h
    | ok packed =>
      have hrun : t.run (readArchives (a :: found)) = _ := Tree.run_task_ok (run_read hread) _
      rw [hrun] at h
      cases hparse : parseArchive packed with
      | error fault =>
        rw [hparse] at h
        cases h
      | ok first =>
        rw [hparse] at h
        have hgive := Tree.run_task_ok (t := t) (a := first) (x := give (.ok first)) rfl
          fun first => do
            let others ← readArchives found
            pure (first ++ others)
        have h := (congrArg Prod.fst hgive).symm.trans h
        rcases hrest : t.run (readArchives found) with ⟨fault | others, t'⟩
        · rw [Tree.run_task_error hrest] at h
          cases h
        · rw [Tree.run_task_ok hrest] at h
          cases h
          obtain ⟨volumes, hfound, hholds, rfl⟩ := ih (congrArg Prod.fst hrest)
          exact ⟨(a, first) :: volumes, by rw [List.map_cons, hfound],
            List.forall_mem_cons.mpr ⟨⟨packed, hread, hparse⟩, hholds⟩, rfl⟩

/-! ## Reading the active file -/

def activeRecords : Except FileFault Bytes → Except Fault (List HistoryRecord)
  | .error fault =>
    if fault.reason == .notFound then .ok []
    else .error (.user "Could not read history file." fault.toFault)
  | .ok text =>
    match lines? text with
    | none => .error (.user "Could not read history file." lineTooLong)
    | some lines => (parse lines).mapError (.user "History file is corrupt.")

theorem run_readActive (t : Tree) (dir : Bytes) :
    t.run (readActive dir) = (activeRecords (t.readAt (path dir)), t) := by
  have hread : t.run (FileProgram.perform (.read (path dir))) = (t.readAt (path dir), t) := rfl
  refine (Tree.run_task_lift hread _).trans ?_
  cases t.readAt (path dir) with
  | error fault =>
    simp only [activeRecords]
    split <;> rfl
  | ok text =>
    simp only [activeRecords]
    cases lines? text with
    | none => rfl
    | some lines =>
      simp only
      cases parse lines <;> rfl

/-- Reading the active file of a folder succeeds on lines of records only. -/
theorem activeRecords_eq_ok (h : t.Folder dir place c) {rs : List HistoryRecord} :
    activeRecords (t.readAt (path dir)) = .ok rs ↔
      HasRoom dir fileName ∧ ∃ lines, ActiveLines c lines ∧ parsed? lines = some rs := by
  by_cases hroom : HasRoom dir fileName
  · rw [path, h.readAt isName_fileName hroom]
    unfold ActiveLines
    rcases hc : c fileName with _ | ⟨id, text, mode⟩ | mode
    · simp [activeRecords, Tree.refuse, hroom, parsed?, eq_comm]
    · cases hlines : lines? text with
      | none => simp [activeRecords, hlines]
      | some lines =>
        cases hparse : parse lines with
        | error fault =>
          have hnone : parsed? lines ≠ some rs := fun h => by
            rw [parse_eq_ok.mpr h] at hparse
            cases hparse
          simp [activeRecords, hlines, hparse, hroom, Except.mapError, hnone]
        | ok rs' =>
          simp [activeRecords, hlines, hparse, hroom, Except.mapError, parse_eq_ok.mp hparse]
    · simp [activeRecords, Tree.refuse]
  · rw [path, h.readAt_of_not_hasRoom isName_fileName hroom]
    simp [activeRecords, Tree.refuse, hroom]

/-! ## Reading all records -/

theorem run_archives_of_listAt {entries : List DirectoryEntry} (h : t.listAt dir = .ok entries) :
    t.run (archives dir) =
      (match archivesAmong dir entries with
        | some found => .ok found
        | none => .error .overlapping, t) := by
  have hlist : t.run (FileProgram.perform (.list dir)) = (.ok entries, t) := congrArg (·, t) h
  refine (Tree.run_bind_of_run hlist _).trans ?_
  simp only
  cases archivesAmong dir entries <;> rfl

theorem run_archives (h : t.Folder dir place c) :
    t.run (archives dir) =
      (match archivesAmong dir (t.entries place) with
        | some found => .ok found
        | none => .error .overlapping, t) :=
  run_archives_of_listAt h.listAt

namespace Shelf

variable {volumes : List Volume} {lines : List Bytes} {recent : List HistoryRecord}

theorem archivesAmong_entries (h : Shelf t dir place c volumes lines)
    (horder : Orderly (volumes.map Prod.fst)) :
    archivesAmong dir (t.entries place) = some (volumes.map Prod.fst) := by
  rw [History.archivesAmong_entries, if_neg]
  · exact congrArg some (ascending_eq (horder.of_perm h.ranked.perm.symm) h.ranked)
  · simpa using h.sensible

theorem run_archives (h : Shelf t dir place c volumes lines)
    (horder : Orderly (volumes.map Prod.fst)) :
    t.run (archives dir) = (.ok (volumes.map Prod.fst), t) := by
  rw [History.run_archives h.folder, h.archivesAmong_entries horder]

/-- The records are those of the volumes and of the lines. -/
theorem run_records (h : Shelf t dir place c volumes lines)
    (horder : Orderly (volumes.map Prod.fst)) (hparsed : parsed? lines = some recent) :
    t.run (records dir) = (.ok (recordsOf volumes ++ recent), t) := by
  have hactive := (activeRecords_eq_ok h.folder).mpr ⟨h.room, lines, h.active, hparsed⟩
  refine (Tree.run_task_lift (h.run_archives horder) _).trans ?_
  refine (Tree.run_task_ok (run_readArchives h.held) _).trans ?_
  refine (Tree.run_task_ok ((run_readActive t dir).trans (congrArg (·, t) hactive)) _).trans ?_
  rfl

end Shelf

/-- A directory whose records can be read has a shelf. -/
theorem exists_shelf (h : t.Folder dir place c) {rs : List HistoryRecord}
    (hrun : (t.run (records dir)).1 = .ok rs)
    (horder : ∀ found, (t.run (archives dir)).1 = .ok found → Orderly found) :
    ∃ volumes lines recent, Shelf t dir place c volumes lines ∧ Orderly (volumes.map Prod.fst) ∧
      parsed? lines = some recent ∧ rs = recordsOf volumes ++ recent := by
  have harchives := run_archives h
  have hamong := archivesAmong_entries t dir place
  by_cases hsensible : (t.entries place).any (fun e => Entry.of e == .overlapping) = true
  · rw [hamong, if_pos hsensible] at harchives
    rw [show t.run (records dir) = _ from Tree.run_task_lift harchives _] at hrun
    cases hrun
  · rw [hamong, if_neg hsensible] at harchives
    have horder := horder _ (congrArg Prod.fst harchives)
    rw [show t.run (records dir) = _ from Tree.run_task_lift harchives _] at hrun
    simp only at hrun
    rcases hold : t.run (readArchives (ascending (archivesIn t dir place))) with ⟨fault | old, t'⟩
    · rw [Tree.run_task_error hold] at hrun
      cases hrun
    · obtain ⟨volumes, hvolumes, hheld, rfl⟩ := holds_of_readArchives (congrArg Prod.fst hold)
      have hranked := ranked_ascending (horder.of_perm (ascending_perm _).symm)
      have hread := run_readArchives hheld
      rw [← hvolumes] at hranked hrun horder
      rw [Tree.run_task_ok hread] at hrun
      cases hactive : activeRecords (t.readAt (path dir)) with
      | error fault =>
        rw [Tree.run_task_error ((run_readActive t dir).trans (congrArg (·, t) hactive))] at hrun
        cases hrun
      | ok recent =>
        rw [Tree.run_task_ok ((run_readActive t dir).trans (congrArg (·, t) hactive))] at hrun
        cases hrun
        obtain ⟨hroom, lines, hlines, hparsed⟩ := (activeRecords_eq_ok h).mp hactive
        exact ⟨volumes, lines, recent,
          ⟨h, by simpa using hsensible, hranked, hheld, hroom, hlines⟩, horder, hparsed, rfl⟩

end History

end ScanTriage
