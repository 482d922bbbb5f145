import Mathlib.Data.List.Infix
import Mathlib.Data.List.Perm.Basic
import ScanTriage.Proofs.History.Computed

/-!
# Finding archives by their names

`IsArchive e n`: the directory entry `e` is the archive of number `n`. What is
found among directory entries are these, each once and by ascending number
(`Discovered`), whatever else the directory holds. One name keeps the archives
from being found: `triage-history.jsonl.gz` starts as an archive does and ends as
one does, but with the same dot, so it has no place for a number
(`entry_of_overlapping_iff`). A file of that name stops every reader and writer
of the history.
-/

namespace ScanTriage

namespace History

open Integer (IsInteger)

/-- A directory entry that is the archive of a number: a file that has a
positive number between the front and the back of an archive's name. -/
structure IsArchive (e : DirectoryEntry) (n : Int64) : Prop where
  file : e.isDirectory = false
  positive : 1 ≤ n
  name : ∃ digits, e.name = ("triage-history.jsonl." : Bytes) ++ digits ++ (".gz" : Bytes) ∧
    IsInteger digits n.toInt

/-- The file in whose name the back of an archive's name begins within the
front. -/
def overlap : DirectoryEntry := ⟨"triage-history.jsonl.gz", false⟩

/-- The archives that are found among directory entries: each entry that is an
archive is one of them, once, and they stand in the order of their numbers. -/
structure Discovered (dir : Bytes) (entries : List DirectoryEntry) (found : List Archive) :
    Prop where
  sorted : found.Pairwise fun a b => a.number ≤ b.number
  parts : ∃ picked others, entries.Perm (picked ++ others) ∧
    List.Forall₂ (fun e a => IsArchive e a.number ∧ a.path = Path.join [dir, e.name])
      picked found ∧
    ∀ e ∈ others, ∀ n, ¬ IsArchive e n

/-! ## Names -/

theorem archiveFront_eq : archiveFront = ("triage-history.jsonl." : Bytes) := by decide

theorem entry_of_archive_iff {e : DirectoryEntry} {n : Int64} :
    Entry.of e = .archive n ↔ IsArchive e n := by
  refine ⟨fun h => ?_, fun h => ?_⟩
  · obtain ⟨hfile, hpositive, digits, hname, hread⟩ := entry_of_archive h
    refine ⟨hfile, hpositive, digits, ?_, Integer.readDecimal_eq_ok.mp hread⟩
    rw [hname, archiveFront_eq, archiveBack]
  · obtain ⟨digits, hname, hdigits⟩ := h.name
    rw [← archiveFront_eq, ← archiveBack] at hname
    exact entry_of_between h.file hname (Integer.readDecimal_eq_ok.mpr hdigits) h.positive

/-- Front and back have nothing but a dot in common. -/
theorem shared_eq : ∀ shared, shared <+: archiveBack → shared <:+ archiveFront →
    shared = [] ∨ shared = [Bytes.dot] := by
  have hinits : ∀ shared ∈ archiveBack.inits, shared <:+ archiveFront →
      shared = [] ∨ shared = [Bytes.dot] := by decide
  exact fun shared hback => hinits shared ((List.mem_inits _ _).mpr hback)

/-- Only one name is too short for both front and back. -/
theorem entry_of_overlapping_iff {e : DirectoryEntry} :
    Entry.of e = .overlapping ↔ e = overlap := by
  refine ⟨fun h => ?_, fun h => by rw [h]; decide⟩
  unfold Entry.of at h
  split at h
  · cases h
  next hcond =>
  split at h
  · next hshort =>
    simp only [Bool.or_eq_true, Bool.not_eq_true', not_or, Bool.not_eq_true, Bool.not_eq_false]
      at hcond
    obtain ⟨⟨hfile, hfront⟩, hback⟩ := hcond
    obtain ⟨rest, hrest⟩ := List.isPrefixOf_iff_prefix.mp hfront
    obtain ⟨pre, hpre⟩ := List.isSuffixOf_iff_suffix.mp hback
    have hlength := congrArg List.length hrest
    rw [List.length_append] at hlength
    have hshared : ∃ shared, archiveFront = pre ++ shared ∧ archiveBack = shared ++ rest := by
      rcases List.append_eq_append_iff.mp (hrest.trans hpre.symm) with ⟨x, hx, hx'⟩ | h
      · -- The back would follow the front, for which the name is too short.
        have hlong := congrArg List.length hx'
        rw [List.length_append] at hlong
        omega
      · exact h
    obtain ⟨shared, hsuffix, hprefix⟩ := hshared
    rcases shared_eq shared ⟨rest, hprefix.symm⟩ ⟨pre, hsuffix.symm⟩ with rfl | rfl
    · have hlong := congrArg List.length hprefix
      rw [List.length_append, List.length_nil] at hlong
      omega
    · have hgz : archiveBack = [Bytes.dot] ++ ("gz" : Bytes) := by decide
      have hname : e.name = overlap.name := by
        rw [← hrest, ← List.append_cancel_left (hgz.symm.trans hprefix)]
        decide
      cases e
      cases hname
      cases hfile
      rfl
  · dsimp only at h
    split at h
    · split at h <;> cases h
    · cases h

/-! ## Listings -/

theorem any_overlapping_iff {entries : List DirectoryEntry} :
    (entries.any fun e => Entry.of e == .overlapping) = true ↔ overlap ∈ entries := by
  simp only [List.any_eq_true, beq_iff_eq, entry_of_overlapping_iff, exists_eq_right]

/-- The archives in the order of the listing stand beside their entries. -/
theorem forall₂_filterMap (dir : Bytes) (entries : List DirectoryEntry) :
    List.Forall₂ (fun e a => IsArchive e a.number ∧ a.path = Path.join [dir, e.name])
      (entries.filter fun e => (archiveOf? dir e).isSome) (entries.filterMap (archiveOf? dir)) := by
  induction entries with
  | nil => exact .nil
  | cons e entries ih =>
    cases he : archiveOf? dir e with
    | none =>
      rw [List.filterMap_cons_none he, List.filter_cons_of_neg (by simp [he])]
      exact ih
    | some a =>
      rw [List.filterMap_cons_some he, List.filter_cons_of_pos (by simp [he])]
      obtain ⟨hentry, hpath⟩ := archiveOf?_eq_some.mp he
      exact .cons ⟨entry_of_archive_iff.mp hentry, hpath⟩ ih

theorem discovered_ascending (dir : Bytes) (entries : List DirectoryEntry) :
    Discovered dir entries (ascending (entries.filterMap (archiveOf? dir))) := by
  refine ⟨pairwise_ascending _, ?_⟩
  -- The entries follow their archives into the order of the numbers.
  obtain ⟨picked, hpicked, hperm⟩ := List.perm_comp_forall₂
    (ascending_perm (entries.filterMap (archiveOf? dir))) (forall₂_filterMap dir entries).flip
  refine ⟨picked, entries.filter fun e => !(archiveOf? dir e).isSome, ?_, hpicked.flip, ?_⟩
  · have hsplit := List.filter_append_perm (fun e => (archiveOf? dir e).isSome) entries
    exact hsplit.symm.trans (hperm.symm.append_right _)
  · intro e he n hn
    have hsome : archiveOf? dir e = some ⟨n, Path.join [dir, e.name]⟩ :=
      archiveOf?_eq_some.mpr ⟨entry_of_archive_iff.mpr hn, rfl⟩
    simp [hsome] at he

theorem archivesAmong_of_overlap {entries : List DirectoryEntry} (dir : Bytes)
    (h : overlap ∈ entries) : archivesAmong dir entries = none :=
  if_pos (any_overlapping_iff.mpr h)

theorem archivesAmong_of_sensible {entries : List DirectoryEntry} (dir : Bytes)
    (h : overlap ∉ entries) :
    archivesAmong dir entries = some (ascending (entries.filterMap (archiveOf? dir))) :=
  if_neg (mt any_overlapping_iff.mp h)

/-- Where that file is, nothing of the history is read. -/
theorem run_of_overlap {t : Tree} {dir : Bytes} {entries : List DirectoryEntry}
    (hlist : t.listAt dir = .ok entries) (h : overlap ∈ entries) :
    t.run (archives dir) = (.error .overlapping, t) ∧
      t.run (records dir) = (.error .aborted, t) := by
  have harchives : t.run (archives dir) = (.error .overlapping, t) := by
    rw [run_archives_of_listAt hlist, archivesAmong_of_overlap dir h]
  exact ⟨harchives, (Tree.run_task_lift harchives _).trans rfl⟩

/-- The archives of a directory are found exactly, whatever it holds, unless it
holds a file of the one name that has front and back of an archive's name but no
room for both; with such a file nothing is found, and reading the history stops. -/
theorem archives_discovered (dir : Bytes) (entries : List DirectoryEntry) :
    (overlap ∉ entries → ∃ found, archivesAmong dir entries = some found ∧
      Discovered dir entries found ∧
      ∀ t : Tree, t.listAt dir = .ok entries → t.run (archives dir) = (.ok found, t)) ∧
    (overlap ∈ entries → archivesAmong dir entries = none ∧
      ∀ t : Tree, t.listAt dir = .ok entries →
        t.run (archives dir) = (.error .overlapping, t) ∧
        t.run (records dir) = (.error .aborted, t)) := by
  refine ⟨fun h => ?_, fun h => ?_⟩
  · have hamong := archivesAmong_of_sensible dir h
    refine ⟨_, hamong, discovered_ascending dir entries, fun t hlist => ?_⟩
    rw [run_archives_of_listAt hlist, hamong]
  · exact ⟨archivesAmong_of_overlap dir h, fun t hlist => run_of_overlap hlist h⟩

/-- Numbers with a sign and with zeros in front are found; a directory, a number
below one and a number beyond 64 bits are not. -/
theorem archives_discovered_mixed :
    let name (digits : Bytes) : Bytes := "triage-history.jsonl." ++ digits ++ ".gz"
    let entries : List DirectoryEntry :=
      [⟨name "+3", false⟩, ⟨name "-1", false⟩, ⟨name "002", false⟩, ⟨name "1", true⟩,
        ⟨name "9223372036854775808", false⟩, ⟨name "gz", false⟩, ⟨"triage-history.jsonl", false⟩]
    let found : List Archive := [⟨2, "s/" ++ name "002"⟩, ⟨3, "s/" ++ name "+3"⟩]
    overlap ∉ entries ∧ archivesAmong "s" entries = some found ∧ Discovered "s" entries found := by
  intro name entries found
  have hnot : overlap ∉ entries := by decide
  have hfound : ascending (entries.filterMap (archiveOf? "s")) = found := by
    decide +kernel
  have hamong : archivesAmong "s" entries = some found := by
    rw [archivesAmong_of_sensible "s" hnot, hfound]
  obtain ⟨found', hamong', hdiscovered, -⟩ := (archives_discovered "s" entries).1 hnot
  rw [hamong, Option.some_inj] at hamong'
  exact ⟨hnot, hamong, hamong' ▸ hdiscovered⟩

def withCopy : Tree :=
  { nodes := [(["s"], .directory 0o755), (["s", "triage-history.jsonl.gz"], .file 0 [] 0o644)]
    serial := 1 }

/-- The file is no archive, but no archives are found beside it, and the records
cannot be read. -/
theorem archives_stopped_by_copy :
    withCopy.listAt "/s" = .ok [overlap] ∧ (∀ n, ¬ IsArchive overlap n) ∧
      archivesAmong "/s" [overlap] = none ∧
      withCopy.run (archives "/s") = (.error .overlapping, withCopy) ∧
      withCopy.run (records "/s") = (.error .aborted, withCopy) := by
  have hlist : withCopy.listAt "/s" = .ok [overlap] := by
    unfold Tree.listAt
    decide +kernel
  have hmem : overlap ∈ [overlap] := List.mem_singleton_self _
  refine ⟨hlist, fun n hn => ?_, archivesAmong_of_overlap "/s" hmem, run_of_overlap hlist hmem⟩
  rw [← entry_of_archive_iff, entry_of_overlapping_iff.mpr rfl] at hn
  cases hn

end History

end ScanTriage
