import Mathlib.Data.List.Sort
import ScanTriage.Proofs.History.Append

/-!
# Histories that the kernel runs

A listing is sorted by merging, which does not unfold in the kernel. The functions
here sort by insertion and answer the same, so that a history with its listings
can be run on a tree that is written down.
-/

namespace ScanTriage

/-- The two sorts agree also where different items rank equal, as they do in an order by a key:
`List.mergeSort_eq_insertionSort` asks for antisymmetry. -/
theorem mergeSort_eq_insertionSort {α : Type} {le : α → α → Bool}
    (trans : ∀ a b c, le a b = true → le b c = true → le a c = true)
    (total : ∀ a b, (le a b || le b a) = true) (l : List α) :
    l.mergeSort le = l.insertionSort fun a b => le a b = true := by
  induction l with
  | nil => simp
  | cons a l ih =>
    obtain ⟨front, back, hcons, hrest, hfront⟩ := List.mergeSort_cons trans total a l
    have hsorted := List.pairwise_mergeSort trans total (a :: l)
    rw [hcons] at hsorted ⊢
    rw [List.insertionSort_cons, ← ih, hrest]
    clear hcons hrest ih
    -- What goes before `a` is less than `a`, and the first item after it is not.
    induction front with
    | nil =>
      cases back with
      | nil => rfl
      | cons b back =>
        have hle := (List.pairwise_cons.mp hsorted).1 b List.mem_cons_self
        rw [List.nil_append, List.nil_append, List.orderedInsert_cons, if_pos hle]
    | cons b front ih =>
      rw [List.forall_mem_cons] at hfront
      have hlt : ¬ le a b = true := by simpa using hfront.1
      rw [List.cons_append, List.cons_append, List.orderedInsert_cons, if_neg hlt,
        ← ih hfront.2 (List.pairwise_cons.mp hsorted).2]

/-- The names right below a directory, sorted by insertion. -/
def Tree.listed (t : Tree) (place : NodePath) : List DirectoryEntry :=
  (t.nodes.filterMap fun (path, node) =>
    if path.dropLast == place && !path.isEmpty then some ⟨path.getLastD [], node.isDirectory⟩
    else none).insertionSort fun a b => Bytes.le a.name b.name = true

theorem Tree.entries_eq_listed (t : Tree) (place : NodePath) : t.entries place = t.listed place := by
  have hle : ∀ a b : Bytes, Bytes.le a b = true ↔ a ≤ b := fun a b => by simp [Bytes.le]
  refine mergeSort_eq_insertionSort (fun a b c hab hbc => ?_) (fun a b => ?_) _
  · rw [hle] at hab hbc ⊢
    exact List.le_trans hab hbc
  · rw [Bool.or_eq_true, hle, hle]
    exact List.le_total a.name b.name

namespace History

variable {t : Tree} {dir : Bytes}

def archivesAt (t : Tree) (dir : Bytes) : Except ListFault (List Archive) :=
  match t.lookup dir with
  | .error reason => .error (.file ⟨"open", dir, reason⟩)
  | .ok (_, .file ..) => .error (.file ⟨"open", dir, .notDirectory⟩)
  | .ok (place, .directory _) =>
    if (t.listed place).any fun e => Entry.of e == .overlapping then .error .overlapping
    else .ok (ascending ((t.listed place).filterMap (archiveOf? dir)))

theorem run_archives_eq (t : Tree) (dir : Bytes) : t.run (archives dir) = (archivesAt t dir, t) := by
  have hlist : t.run (FileProgram.perform (.list dir)) = (t.listAt dir, t) := rfl
  refine (Tree.run_bind_of_run hlist _).trans ?_
  unfold archivesAt Tree.listAt
  rcases hlookup : t.lookup dir with reason | ⟨place, ⟨id, data, mode⟩ | mode⟩
  · rfl
  · rfl
  · simp only [archivesAmong_entries, archivesIn, ← Tree.entries_eq_listed]
    by_cases hoverlap : ((t.entries place).any fun e => Entry.of e == .overlapping) = true
    · simp only [if_pos hoverlap]
      rfl
    · simp only [if_neg hoverlap]
      rfl

def recordsAt (t : Tree) (dir : Bytes) : Except Fault (List HistoryRecord) × Tree :=
  match archivesAt t dir with
  | .error .overlapping => (.error .aborted, t)
  | .error (.file fault) =>
    if fault.reason == .notFound then (.ok [], t)
    else (.error (.user "Could not read history directory." fault.toFault), t)
  | .ok found =>
    t.run (do
      let old ← readArchives found
      let recent ← readActive dir
      pure (old ++ recent) : FileTask (List HistoryRecord))

theorem run_records_eq (t : Tree) (dir : Bytes) : t.run (records dir) = recordsAt t dir := by
  refine (Tree.run_task_lift (run_archives_eq t dir) _).trans ?_
  unfold recordsAt
  rcases archivesAt t dir with (⟨fault⟩ | _) | found
  · dsimp only
    split <;> rfl
  · rfl
  · rfl

def rotateAt (t : Tree) (path : Bytes) (lines : List Bytes) (keep : Nat) :
    Except Fault Unit × Tree :=
  match archivesAt t (Path.directory path) with
  | .error .overlapping => (.error .aborted, t)
  | .error (.file fault) => (.error (.user "Could not rotate history file." fault.toFault), t)
  | .ok found =>
    t.run (rotateTo path (Path.join [Path.directory path, archiveName (nextNumber found)]) lines keep
      found)

theorem run_rotate_eq_at (t : Tree) (path : Bytes) (lines : List Bytes) (keep : Nat) :
    t.run (rotate path lines keep) = rotateAt t path lines keep := by
  have hfound := run_archives_eq t (Path.directory path)
  unfold rotateAt
  cases hcase : archivesAt t (Path.directory path) with
  | ok found =>
    rw [hcase] at hfound
    exact run_rotate_eq hfound rfl
  | error fault =>
    rw [hcase] at hfound
    refine (Tree.run_task_lift hfound _).trans ?_
    cases fault <;> rfl

def rotateIfNeededAt (t : Tree) (file : Bytes) (m : Int64) : Except Fault Unit × Tree :=
  match t.readAt file with
  | .error fault => (.error (.user "Could not read history for rotation." fault.toFault), t)
  | .ok text =>
    match lines? text with
    | none => (.error (.user "Could not read history for rotation." lineTooLong), t)
    | some lines =>
      if Int64.ofNat lines.length ≤ m then (.ok (), t) else rotateAt t file lines m.toNatClampNeg

theorem run_rotateIfNeeded_eq_at (t : Tree) (file : Bytes) (m : Int64) :
    t.run (rotateIfNeeded file m) = rotateIfNeededAt t file m := by
  unfold rotateIfNeededAt
  cases hread : t.readAt file with
  | error fault => exact Tree.run_task_error (run_read_error hread) _
  | ok text =>
    simp only
    cases hlines : lines? text with
    | none =>
      refine (Tree.run_task_ok (run_read hread) _).trans ?_
      rw [hlines]
      rfl
    | some lines => rw [run_rotateIfNeeded hread hlines, run_rotate_eq_at]

def appendAt (t : Tree) (dir : Bytes) (r : HistoryRecord) (m : Int64) : Except Fault Unit × Tree :=
  match t.run (.makeDirectories dir) with
  | (.error fault, t₁) =>
    (.error (.user "Could not create state directory for history." fault.toFault), t₁)
  | (.ok _, t₁) =>
    match t₁.editAt (path dir) 0o644 (· ++ recordLine r) with
    | (.error fault, t₂) => (.error (.user "Could not record triage history." fault.toFault), t₂)
    | (.ok _, t₂) => if 0 < m then rotateIfNeededAt t₂ (path dir) m else (.ok (), t₂)

theorem run_append_eq_at (t : Tree) (dir : Bytes) (r : HistoryRecord) (m : Int64) :
    t.run (append dir r m) = appendAt t dir r m := by
  unfold appendAt
  rcases hmade : t.run (.makeDirectories dir) with ⟨fault | _, t₁⟩
  · exact Tree.run_task_error (Tree.run_orTell_error hmade) _
  refine (Tree.run_task_ok (Tree.run_orTell_ok hmade) _).trans ?_
  simp only
  rcases hadd : t₁.editAt (path dir) 0o644 (· ++ recordLine r) with ⟨fault | id, t₂⟩
  · have hrun := congrArg (fun x => (x.1.map fun _ => (), x.2)) hadd
    exact Tree.run_task_error (Tree.run_orTell_error (p := .perform (.append ..)) hrun) _
  · have hrun := congrArg (fun x => (x.1.map fun _ => (), x.2)) hadd
    refine (Tree.run_task_ok (Tree.run_orTell_ok (p := .perform (.append ..)) hrun) _).trans ?_
    simp only
    split
    · exact run_rotateIfNeeded_eq_at t₂ (path dir) m
    · rfl

end History

end ScanTriage
