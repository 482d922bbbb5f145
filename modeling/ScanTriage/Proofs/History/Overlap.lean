import ScanTriage.Proofs.FileSystem.Interleave
import ScanTriage.Proofs.FileSystem.Making
import ScanTriage.Proofs.History.Runs

/-!
# Appends at the same time

Appends take no lock, so their commands may be mixed. While one of them rotates,
that is from reading the lines until the active file is replaced, whatever
another one adds is lost (`append_loses_record`). Otherwise nothing is: two
appends of which none changes anything while the other rotates leave all
records, the new ones in the order in which they were added (`records_overlap`).
-/

namespace ScanTriage

namespace FileCommand

/-- A command may change the tree. -/
def isChange : FileCommand → Bool
  | .stat _ | .read _ | .list _ | .openFile _ => false
  | _ => true

def isRead : FileCommand → Bool
  | .read _ => true
  | _ => false

def isAppend : FileCommand → Bool
  | .append .. => true
  | _ => false

end FileCommand

theorem Tree.perform_of_not_isChange {c : FileCommand} (t : Tree) (h : c.isChange = false) :
    (t.perform c).2 = t := by
  cases c <;> first | rfl | cases h

namespace History

open FileProgram (call done makeDirectories Uses)
open ScanTriage.Tree (contentOf IsMaking)

variable {t t' : Tree} {dir : Bytes}

/-! ## The commands of an append -/

def addTo (dir : Bytes) (r : HistoryRecord) (m : Int64) : FileProgram (Except Fault Unit) :=
  call (.append (path dir) 0o644 (recordLine r)) fun
    | .ok _ => if 0 < m then rotateIfNeeded (path dir) m else done (.ok ())
    | .error fault => done (.error (.user "Could not record triage history." fault.toFault))

def afterMaking (dir : Bytes) (r : HistoryRecord) (m : Int64) :
    Except FileFault Unit → FileProgram (Except Fault Unit)
  | .ok _ => addTo dir r m
  | .error fault =>
    done (.error (.user "Could not create state directory for history." fault.toFault))

theorem append_eq (dir : Bytes) (r : HistoryRecord) (m : Int64) :
    append dir r m = makeDirectories dir >>= afterMaking dir r m := by
  refine (FileProgram.bind_assoc _ _ _).trans (congrArg (FileProgram.bind _) (funext fun made => ?_))
  rcases made with fault | _
  · rfl
  refine congrArg (call _) (funext fun added => ?_)
  rcases added with fault | _
  · rfl
  · by_cases hm : 0 < m
    · simp only [hm, if_true]
      rfl
    · simp only [hm]
      rfl

theorem rotateIfNeeded_eq (file : Bytes) (m : Int64) :
    rotateIfNeeded file m =
      call (.read file) fun
        | .error fault => done (.error (.user "Could not read history for rotation." fault.toFault))
        | .ok text =>
          match lines? text with
          | none => done (.error (.user "Could not read history for rotation." lineTooLong))
          | some lines =>
            if Int64.ofNat lines.length ≤ m then done (.ok ())
            else rotate file lines m.toNatClampNeg := by
  refine congrArg (call _) (funext fun read => ?_)
  rcases read with fault | text
  · rfl
  change (match lines? text with
    | none => throw _
    | some lines => if Int64.ofNat lines.length ≤ m then pure () else _ : FileTask Unit) =
      (match lines? text with
      | none => _
      | some lines => _)
  rcases lines? text with _ | lines
  · rfl
  · dsimp only
    split <;> rfl

theorem rotate_eq (file : Bytes) (lines : List Bytes) (keep : Nat) :
    rotate file lines keep =
      call (.list (Path.directory file)) fun
        | .error fault => done (.error (.user "Could not rotate history file." fault.toFault))
        | .ok entries =>
          match archivesAmong (Path.directory file) entries with
          | none => done (.error .aborted)
          | some found =>
            rotateTo file (Path.join [Path.directory file, archiveName (nextNumber found)]) lines
              keep found := by
  refine congrArg (call _) (funext fun listed => ?_)
  rcases listed with fault | entries
  · rfl
  · dsimp only [FileProgram.bind]
    rcases archivesAmong (Path.directory file) entries with _ | found <;> rfl

/-! ### Commands that change -/

/-- A command changes something, but adds no record. -/
structure IsMoving (c : FileCommand) : Prop where
  isChange : c.isChange = true
  isAppend : c.isAppend = false

theorem isMoving_prune (excess : Nat) (found : List Archive) :
    Uses IsMoving (prune excess found) := by
  induction excess generalizing found with
  | zero => trivial
  | succ excess ih =>
    cases found with
    | nil => trivial
    | cons a found => exact Uses.task_bind (Uses.orTell _ ⟨⟨rfl, rfl⟩, fun _ => trivial⟩) fun _ => ih found

theorem isMoving_replaceFile (file data : Bytes) : Uses IsMoving (replaceFile file data) := by
  refine ⟨⟨rfl, rfl⟩, fun written => ?_⟩
  rcases written with fault | temporary
  · trivial
  refine ⟨⟨rfl, rfl⟩, fun renamed => ?_⟩
  rcases renamed with fault | _
  · exact ⟨⟨rfl, rfl⟩, fun _ => trivial⟩
  · trivial

theorem isMoving_rotateTo (file target : Bytes) (lines : List Bytes) (keep : Nat)
    (found : List Archive) : Uses IsMoving (rotateTo file target lines keep found) := by
  refine Uses.task_bind (Uses.orTell _ ⟨⟨rfl, rfl⟩, fun _ => trivial⟩) fun _ => ?_
  refine Uses.task_bind (isMoving_prune _ _) fun _ => ?_
  exact Uses.orTell _ (isMoving_replaceFile file _)

/-! ## What a directory holds -/

/-- A shelf with room for some more archives. -/
structure Stocked (t : Tree) (dir : Bytes) (place : NodePath) (c : Bytes → Option Node)
    (volumes : List Volume) (active : List HistoryRecord) (spare : Nat) : Prop where
  shelf : Shelf t dir place c volumes (active.map recordLine)
  whole : IsWhole (contentOf (c fileName))
  storable : ∀ r ∈ active, r.IsStorable
  few : volumes.length + spare ≤ maxArchives
  numbers : ∀ v ∈ volumes, v.1.number.toInt + spare < 2 ^ 63

/-- A directory holds records, and has room for some more archives. -/
def Stores (t : Tree) (dir : Bytes) (rs : List HistoryRecord) (spare : Nat) : Prop :=
  ∃ place c volumes active, Stocked t dir place c volumes active spare ∧
    recordsOf volumes ++ active = rs

variable {rs : List HistoryRecord} {spare spare' : Nat} {r : HistoryRecord} {m : Int64}

theorem Stores.mono (h : Stores t dir rs spare) (hle : spare' ≤ spare) :
    Stores t dir rs spare' := by
  obtain ⟨place, c, volumes, active, ⟨hshelf, hwhole, hstorable, hfew, hnumbers⟩, hrs⟩ := h
  refine ⟨place, c, volumes, active, ⟨hshelf, hwhole, hstorable, by omega, fun v hv => ?_⟩, hrs⟩
  have hnumber := hnumbers v hv
  omega

theorem Stores.run_records (h : Stores t dir rs spare) : t.run (records dir) = (.ok rs, t) := by
  obtain ⟨place, c, volumes, active, hstocked, rfl⟩ := h
  have hfew := hstocked.few
  exact hstocked.shelf.run_records (orderly_of_few (by omega))
    (parsed?_map_recordLine hstocked.storable)

theorem Stores.isDirectory (h : Stores t dir rs spare) : t.isDirectory dir = true := by
  obtain ⟨place, c, volumes, active, hstocked, -⟩ := h
  have hopens := hstocked.shelf.folder.opens
  exact Tree.isDirectory_iff.mpr ⟨place, hopens.leads, hopens.isDirectoryAt⟩

/-- A record is added behind the others. -/
theorem Stores.add (h : Stores t dir rs spare) (hr : r.IsStorable) :
    ∃ t', t.perform (.append (path dir) 0o644 (recordLine r)) = (.ok (), t') ∧
      Stores t' dir (rs ++ [r]) spare := by
  obtain ⟨place, c, volumes, active, ⟨hshelf, hwhole, hstorable, hfew, hnumbers⟩, rfl⟩ := h
  obtain ⟨t', id, mode, hadd, hshelf'⟩ := hshelf.addLine hwhole hr
  have hmap : active.map recordLine ++ [recordLine r] = (active ++ [r]).map recordLine := by simp
  rw [hmap] at hshelf'
  refine ⟨t', ?_, place, _, volumes, active ++ [r], ⟨hshelf', ?_, ?_, hfew, hnumbers⟩, ?_⟩
  · exact congrArg (fun x => (x.1.map fun _ => (), x.2)) hadd
  · rw [Function.update_self]
    exact isWhole_append _ (isLine_recordLine hr)
  · exact List.forall_mem_append.mpr ⟨hstorable, by simpa using hr⟩
  · rw [List.append_assoc]

/-- A number more is used up by the next archive. -/
theorem nextNumber_lt {volumes : List Volume}
    (h : ∀ v ∈ volumes, v.1.number.toInt + (spare + 1 : Nat) < 2 ^ 63) (hspare : spare < 5) :
    (nextNumber (volumes.map Prod.fst)).toInt + spare < 2 ^ 63 := by
  rcases List.eq_nil_or_concat volumes with rfl | ⟨front, last, rfl⟩
  · have hfirst : (nextNumber (([] : List Volume).map Prod.fst)).toInt = 1 := rfl
    omega
  · have hlast := h last (by simp)
    have hnext : nextNumber ((front.concat last).map Prod.fst) = last.1.number + 1 := by
      simp [nextNumber]
    have hlt : last.1.number < Int64.maxValue := by
      rw [Int64.lt_iff_toInt_lt, Int64.toInt_maxValue]
      omega
    rw [hnext, toInt_succ hlt]
    omega

/-- A rotation moves records to another archive. -/
theorem Stores.rotate (h : Stores t dir rs (spare + 1)) {text : Bytes} {lines : List Bytes}
    (hread : t.readAt (path dir) = .ok text) (hlines : lines? text = some lines) {keep : Nat}
    (hrun : t.run (rotate (path dir) lines keep) = (.ok (), t')) : Stores t' dir rs spare := by
  obtain ⟨place, c, volumes, active, ⟨hshelf, hwhole, hstorable, hfew, hnumbers⟩, rfl⟩ := h
  have hlines' : lines = active.map recordLine := by
    rw [path, hshelf.folder.readAt isName_fileName hshelf.room] at hread
    rcases hshelf.active with ⟨hnone, -⟩ | ⟨id, text', mode, hfile, hactive⟩
    · rw [hnone] at hread
      cases hread
    · rw [hfile] at hread
      cases hread
      exact Option.some.inj (hlines.symm.trans hactive)
  subst hlines'
  have hbounded : ∀ v ∈ volumes, v.1.number < Int64.maxValue := by
    intro v hv
    have hnumber := hnumbers v hv
    rw [Int64.lt_iff_toInt_lt, Int64.toInt_maxValue]
    omega
  have hmoved : parsed? ((active.map recordLine).take ((active.map recordLine).length - keep)) =
      some (active.take (active.length - keep)) := by
    rw [List.length_map, ← List.map_take]
    exact parsed?_map_recordLine fun x hx => hstorable x (List.mem_of_mem_take hx)
  have hrotation := hshelf.run_rotate (orderly_of_few (by omega)) hbounded keep hmoved
  rw [hrun] at hrotation
  cases hrotation with
  | @done _ c' hshelf' hcontent _ =>
    have hkept : (active.map recordLine).drop ((active.map recordLine).length - keep) =
        (active.drop (active.length - keep)).map recordLine := by
      rw [List.length_map, List.map_drop]
    have hreread : reread ∘ recordLine = recordLine := funext reread_recordLine
    rw [hkept, List.map_map, hreread] at hshelf'
    rw [hkept] at hcontent
    have hdrop : volumes.length + 1 - maxArchives = 0 := by omega
    refine ⟨place, c', _, active.drop (active.length - keep), ⟨hshelf', ?_, ?_, ?_, ?_⟩, ?_⟩
    · rw [hcontent]
      refine isWhole_flatten fun l hl => ?_
      obtain ⟨x, hx, rfl⟩ := List.mem_map.mp hl
      exact isLine_recordLine (hstorable x (List.mem_of_mem_drop hx))
    · exact fun x hx => hstorable x (List.mem_of_mem_drop hx)
    · rw [rotated, hdrop, List.length_append, List.length_singleton]
      simp only [List.drop_zero]
      omega
    · intro v hv
      rw [rotated, hdrop, List.drop_zero] at hv
      rcases List.mem_append.mp hv with hv | hv
      · have hnumber := hnumbers v hv
        omega
      · rw [List.mem_singleton.mp hv]
        exact nextNumber_lt hnumbers (by rw [maxArchives] at hfew; omega)
    · rw [recordsOf_rotated, hdrop, List.drop_zero, List.append_assoc, List.take_append_drop]

/-! ## Two appends -/

abbrev Overlap := Interleaving Bool (Except Fault Unit)

namespace Overlap

def start (t : Tree) (dir : Bytes) (calls : Bool → Run) : Overlap where
  tree := t
  programs i := append dir (calls i).1 (calls i).2

def isOver : FileProgram (Except Fault Unit) → Bool
  | .done _ => true
  | .call _ _ => false

def hasSucceeded : FileProgram (Except Fault Unit) → Bool
  | .done (.ok _) => true
  | _ => false

theorem hasSucceeded_iff {p : FileProgram (Except Fault Unit)} :
    hasSucceeded p = true ↔ p = done (.ok ()) := by
  rcases p with (fault | _) | ⟨c, next⟩ <;> simp [hasSucceeded]

/-- Who has added a record, in the order in which they did. -/
def adders (s : Overlap) : List Bool := (s.acts.filter fun a => a.command.isAppend).map Act.who

def hasRead (s : Overlap) (i : Bool) : Bool := s.acts.any fun a => a.who == i && a.command.isRead

/-- An append has read the lines and is not done. -/
def rotates (s : Overlap) (i : Bool) : Bool := s.hasRead i && !isOver (s.programs i)

def changes (s : Overlap) (i : Bool) : Bool :=
  match s.programs i with
  | .done _ => false
  | .call c _ => c.isChange

/-- In no turn of a schedule is anything changed while the other append rotates. -/
def isApart (s : Overlap) : List Bool → Bool
  | [] => true
  | i :: schedule => !(s.changes i && s.rotates (!i)) && isApart (s.step i) schedule

/-- The archives that an append may still need. -/
def need (s : Overlap) (i : Bool) : Nat := if isOver (s.programs i) then 0 else 1

variable {s : Overlap} {i j : Bool} {c : FileCommand} {next : c.Answer → FileProgram (Except Fault Unit)}

theorem adders_step (h : s.programs i = call c next) :
    adders (s.step i) = if c.isAppend then s.adders ++ [i] else s.adders := by
  rw [adders, Interleaving.acts_step h, List.filter_append, List.map_append]
  cases hc : c.isAppend with
  | true => simp [hc, adders]
  | false => simp [hc, adders]

theorem hasRead_step (h : s.programs i = call c next) :
    hasRead (s.step i) j = (s.hasRead j || i == j && c.isRead) := by
  rw [hasRead, Interleaving.acts_step h, List.any_append]
  simp [hasRead]

/-- A program that rotates: it lists the archives, or goes on to change something
at once. -/
def Rotating (dir : Bytes) (p : FileProgram (Except Fault Unit)) : Prop :=
  (∃ lines keep, p = rotate (path dir) lines keep) ∨ Uses IsMoving p ∧ ∀ result, p ≠ done result

theorem Rotating.isOver {p : FileProgram (Except Fault Unit)} (h : Rotating dir p) :
    isOver p = false := by
  obtain ⟨lines, keep, rfl⟩ | ⟨-, hnot⟩ := h
  · rw [rotate_eq]
    rfl
  · cases p with
    | done result => exact absurd rfl (hnot result)
    | call c next => rfl

/-- A rotation comes to no good end without a change. -/
theorem Rotating.step (h : Rotating dir (call c next)) (answer : c.Answer) :
    (∃ result, next answer = done result ∧ (c.isChange = false → result ≠ .ok ())) ∨
      Rotating dir (next answer) := by
  obtain ⟨lines, keep, hrotate⟩ | ⟨huses, -⟩ := h
  · rw [rotate_eq] at hrotate
    cases hrotate
    rcases answer with fault | entries
    · exact .inl ⟨_, rfl, fun _ => nofun⟩
    · dsimp only
      rcases archivesAmong (Path.directory (path dir)) entries with _ | found
      · exact .inl ⟨_, rfl, fun _ => nofun⟩
      · exact .inr (.inr ⟨isMoving_rotateTo .., fun _ => nofun⟩)
  · cases hnext : next answer with
    | done result =>
      exact .inl ⟨result, rfl, fun hnot => absurd (huses.1.isChange.symm.trans hnot) nofun⟩
    | call c' next' => exact .inr (.inr ⟨hnext ▸ huses.2 answer, fun _ => nofun⟩)

theorem Rotating.isAppend (h : Rotating dir (call c next)) : c.isAppend = false := by
  obtain ⟨lines, keep, hrotate⟩ | ⟨huses, -⟩ := h
  · rw [rotate_eq] at hrotate
    cases hrotate
    rfl
  · exact huses.1.isAppend

/-- An append before a rotation, or after its end. -/
inductive Idle (dir : Bytes) (calls : Bool → Run) (s : Overlap) (i : Bool) : Prop where
  | making {m : FileProgram (Except FileFault Unit)}
    (hprogram : s.programs i = m >>= afterMaking dir (calls i).1 (calls i).2)
    (huses : m.Uses (IsMaking dir)) (hnot : i ∉ s.adders)
  | reading (hprogram : s.programs i = rotateIfNeeded (path dir) (calls i).2)
    (hmem : i ∈ s.adders)
  | ended (hprogram : s.programs i = done (.ok ())) (hmem : i ∈ s.adders)

/-- How far two appends are. -/
inductive Phase (dir : Bytes) (calls : Bool → Run) (rs : List HistoryRecord) (s : Overlap) :
    Prop where
  /-- None of them rotates. -/
  | quiet
    (hstores : Stores s.tree dir (rs ++ s.adders.map fun i => (calls i).1)
      (s.need false + s.need true))
    (hidle : ∀ i, Idle dir calls s i) (honce : s.adders.Nodup)
  /-- One of them rotates and will not lose anything, if it is left alone. -/
  | rotating (i : Bool) (hrotating : Rotating dir (s.programs i)) (hread : s.hasRead i = true)
    (hmem : i ∈ s.adders)
    (hends : ∀ t', s.tree.run (s.programs i) = (.ok (), t') →
      Stores t' dir (rs ++ s.adders.map fun i => (calls i).1) (s.need (!i)))
    (hidle : Idle dir calls s (!i)) (honce : s.adders.Nodup)
  /-- Each of them waits for the other one. -/
  | stuck (hrotating : ∀ i, Rotating dir (s.programs i)) (hread : ∀ i, s.hasRead i = true)
  | failed (i : Bool) (fault : Fault) (hprogram : s.programs i = done (.error fault))

variable {calls : Bool → Run} {rs : List HistoryRecord}

/-! ### One turn -/

theorem need_add (s : Overlap) (i : Bool) : s.need i + s.need (!i) = s.need false + s.need true := by
  cases i with
  | false => rfl
  | true => exact Nat.add_comm ..

theorem need_of_call (h : s.programs i = call c next) : s.need i = 1 := by
  rw [need, h]
  rfl

theorem need_step_other (s : Overlap) (i : Bool) : need (s.step i) (!i) = s.need (!i) := by
  rw [need, Interleaving.programs_step_of_ne (by simp), need]

theorem need_le_one (s : Overlap) (i : Bool) : s.need i ≤ 1 := by
  unfold need
  split <;> omega

theorem need_step_le (s : Overlap) (h : s.programs i = call c next) :
    need (s.step i) false + need (s.step i) true ≤ s.need false + s.need true := by
  have hself := need_of_call h
  have hother := s.need_step_other i
  have hle := need_le_one (s.step i) i
  have hadd := s.need_add i
  have hadd' := need_add (s.step i) i
  omega

/-- A turn does not matter to the other append. -/
theorem Idle.step_other (h : Idle dir calls s (!i)) (hcall : s.programs i = call c next) :
    Idle dir calls (s.step i) (!i) := by
  have hprogram : (s.step i).programs (!i) = s.programs (!i) :=
    Interleaving.programs_step_of_ne (by simp)
  have hadders : (!i) ∈ adders (s.step i) ↔ (!i) ∈ s.adders := by
    rw [adders_step hcall]
    split <;> simp
  cases h with
  | making hm huses hnot => exact .making (hprogram.trans hm) huses (hadders.not.mpr hnot)
  | reading hread hmem => exact .reading (hprogram.trans hread) (hadders.mpr hmem)
  | ended hover hmem => exact .ended (hprogram.trans hover) (hadders.mpr hmem)

theorem forall_bool (i : Bool) {P : Bool → Prop} (hself : P i) (hother : P (!i)) : ∀ j, P j := by
  intro j
  by_cases hj : j = i
  · exact hj ▸ hself
  · rwa [Bool.eq_not.mpr hj]

/-- The next turn of an append that does not rotate. -/
inductive IdleTurn (dir : Bytes) (calls : Bool → Run) (s : Overlap) (i : Bool) : Prop where
  /-- It makes the directory. -/
  | make {c : FileCommand} {next : c.Answer → FileProgram (Except FileFault Unit)}
    (hprogram : s.programs i =
      call c fun answer => next answer >>= afterMaking dir (calls i).1 (calls i).2)
    (hmaking : IsMaking dir c) (huses : ∀ answer, (next answer).Uses (IsMaking dir))
    (hnot : i ∉ s.adders)
  | add (hprogram : s.programs i = addTo dir (calls i).1 (calls i).2) (hnot : i ∉ s.adders)
  | read (hprogram : s.programs i = rotateIfNeeded (path dir) (calls i).2) (hmem : i ∈ s.adders)

theorem Idle.turn (h : Idle dir calls s i) (hcall : s.programs i = call c next) :
    IdleTurn dir calls s i := by
  cases h with
  | @making m hprogram huses hnot =>
    cases m with
    | done made =>
      rcases made with fault | _
      · exact absurd (hcall.symm.trans hprogram) nofun
      · exact .add hprogram hnot
    | call c' next' => exact .make hprogram huses.1 huses.2 hnot
  | reading hprogram hmem => exact .read hprogram hmem
  | ended hprogram _ => exact absurd (hcall.symm.trans hprogram) nofun

theorem isAppend_of_isMaking (h : IsMaking dir c) : c.isAppend = false := by
  cases c with
  | append => exact h.elim
  | _ => rfl

theorem adders_step_of_not_isAppend (h : s.programs i = call c next) (hc : c.isAppend = false) :
    adders (s.step i) = s.adders := by
  rw [adders_step h, hc]
  rfl

/-- What can come of reading the lines. -/
theorem step_read {m : Int64} (hprogram : s.programs i = rotateIfNeeded (path dir) m) :
    (s.step i).tree = s.tree ∧ adders (s.step i) = s.adders ∧ hasRead (s.step i) i = true ∧
      ((∃ fault, (s.step i).programs i = done (.error fault)) ∨
        (s.step i).programs i = done (.ok ()) ∨
        ∃ text lines, s.tree.readAt (path dir) = .ok text ∧ lines? text = some lines ∧
          (s.step i).programs i = rotate (path dir) lines m.toNatClampNeg) := by
  rw [rotateIfNeeded_eq] at hprogram
  refine ⟨Interleaving.tree_step hprogram, adders_step_of_not_isAppend hprogram rfl, ?_, ?_⟩
  · rw [hasRead_step hprogram]
    simp [FileCommand.isRead]
  rw [Interleaving.programs_step_self hprogram]
  simp only [Tree.perform]
  cases hread : s.tree.readAt (path dir) with
  | error fault => exact .inl ⟨_, rfl⟩
  | ok text =>
    dsimp only
    cases hlines : lines? text with
    | none => exact .inl ⟨_, rfl⟩
    | some lines =>
      dsimp only
      split
      · exact .inr (.inl rfl)
      · exact .inr (.inr ⟨text, lines, rfl, hlines, rfl⟩)

/-- A turn when none rotates. -/
theorem Phase.step_quiet (hstorable : ∀ i, (calls i).1.IsStorable)
    (hstores : Stores s.tree dir (rs ++ s.adders.map fun i => (calls i).1)
      (s.need false + s.need true))
    (hidle : ∀ i, Idle dir calls s i) (honce : s.adders.Nodup)
    (hcall : s.programs i = call c next) : Phase dir calls rs (s.step i) := by
  have hneed := s.need_step_le hcall
  have hother := (hidle (!i)).step_other hcall
  cases (hidle i).turn hcall with
  | make hprogram hmaking huses hnot =>
    have hadders := adders_step_of_not_isAppend hprogram (isAppend_of_isMaking hmaking)
    have hself : Idle dir calls (s.step i) i :=
      .making (Interleaving.programs_step_self hprogram) (huses _) (hadders ▸ hnot)
    refine .quiet ?_ (forall_bool i hself hother) (hadders ▸ honce)
    rw [hadders, Interleaving.tree_step hprogram,
      Tree.perform_of_isMaking_of_isDirectory hstores.isDirectory hmaking]
    exact hstores.mono hneed
  | add hprogram hnot =>
    have hprogram' : s.programs i =
        call (.append (path dir) 0o644 (recordLine (calls i).1)) _ := hprogram
    obtain ⟨t', hperform, hstores'⟩ := hstores.add (hstorable i)
    have hadders : adders (s.step i) = s.adders ++ [i] := adders_step hprogram'
    have hmem : i ∈ adders (s.step i) := by simp [hadders]
    have hafter : (s.step i).programs i = if 0 < (calls i).2 then
        rotateIfNeeded (path dir) (calls i).2 else done (.ok ()) := by
      rw [Interleaving.programs_step_self hprogram', hperform]
    have hself : Idle dir calls (s.step i) i := by
      split at hafter
      · exact .reading hafter hmem
      · exact .ended hafter hmem
    refine .quiet ?_ (forall_bool i hself hother) ?_
    · rw [hadders, Interleaving.tree_step hprogram', hperform, List.map_append, ← List.append_assoc]
      exact hstores'.mono hneed
    · rw [hadders]
      exact List.nodup_append'.mpr ⟨honce, by simp, by simpa using hnot⟩
  | read hprogram hmem =>
    obtain ⟨htree, hadders, hread, hend⟩ := step_read hprogram
    obtain ⟨fault, hfault⟩ | hdone | ⟨text, lines, htext, hlines, hrotate⟩ := hend
    · exact .failed i fault hfault
    · refine .quiet ?_ (forall_bool i (.ended hdone (hadders ▸ hmem)) hother) (hadders ▸ honce)
      rw [hadders, htree]
      exact hstores.mono hneed
    · refine .rotating i (.inl ⟨lines, _, hrotate⟩) hread (hadders ▸ hmem) (fun t' hrun => ?_) hother
        (hadders ▸ honce)
      rw [hadders, need_step_other]
      rw [htree, hrotate] at hrun
      refine Stores.rotate ?_ htext hlines hrun
      have hadd := s.need_add i
      rw [need_of_call hcall] at hadd
      exact hstores.mono (by omega)

/-- A turn of the append that rotates. -/
theorem Phase.step_rotating (hrotating : Rotating dir (s.programs i)) (hread : s.hasRead i = true)
    (hmem : i ∈ s.adders)
    (hends : ∀ t', s.tree.run (s.programs i) = (.ok (), t') →
      Stores t' dir (rs ++ s.adders.map fun i => (calls i).1) (s.need (!i)))
    (hidle : Idle dir calls s (!i)) (honce : s.adders.Nodup)
    (hcall : s.programs i = call c next) : Phase dir calls rs (s.step i) := by
  rw [hcall] at hrotating hends
  have hadders := adders_step_of_not_isAppend hcall hrotating.isAppend
  have hself := Interleaving.programs_step_self hcall
  have htree := Interleaving.tree_step hcall
  have hother := hidle.step_other hcall
  have hread' : hasRead (s.step i) i = true := by
    rw [hasRead_step hcall, hread]
    rfl
  obtain ⟨result, hdone, -⟩ | hrotating' := hrotating.step (s.tree.perform c).1
  · rw [hdone] at hself
    rcases result with fault | _
    · exact .failed i fault hself
    · -- The rotation is at its end, and it has been left alone.
      have hstores := hends _ (by rw [Tree.run_call, hdone]; rfl)
      refine .quiet ?_ (forall_bool i (.ended hself (hadders ▸ hmem)) hother) (hadders ▸ honce)
      have hnone : need (s.step i) i = 0 := by
        rw [need, hself]
        rfl
      rw [hadders, htree, ← need_add _ i, hnone, need_step_other, Nat.zero_add]
      exact hstores
  · rw [← hself] at hrotating'
    refine .rotating i hrotating' hread' (hadders ▸ hmem) (fun t' hrun => ?_) hother
      (hadders ▸ honce)
    rw [hadders, need_step_other]
    refine hends t' ?_
    rw [Tree.run_call, ← hself, ← htree]
    exact hrun

theorem rotates_of_rotating (hrotating : Rotating dir (s.programs i)) (hread : s.hasRead i = true) :
    s.rotates i = true := by
  rw [rotates, hread, hrotating.isOver]
  rfl

theorem isChange_eq_false (hcall : s.programs i = call c next)
    (hapart : (s.changes i && s.rotates (!i)) = false)
    (hrotating : Rotating dir (s.programs (!i))) (hread : s.hasRead (!i) = true) :
    c.isChange = false := by
  have hchanges : s.changes i = c.isChange := by
    rw [changes, hcall]
  rwa [rotates_of_rotating hrotating hread, Bool.and_true, hchanges] at hapart

/-- A turn of the append that does not rotate while the other one does. -/
theorem Phase.step_beside (hrotating : Rotating dir (s.programs (!i)))
    (hread : s.hasRead (!i) = true) (hmem : (!i) ∈ s.adders)
    (hends : ∀ t', s.tree.run (s.programs (!i)) = (.ok (), t') →
      Stores t' dir (rs ++ s.adders.map fun i => (calls i).1) (s.need i))
    (hidle : Idle dir calls s i) (honce : s.adders.Nodup) (hcall : s.programs i = call c next)
    (hapart : (s.changes i && s.rotates (!i)) = false) : Phase dir calls rs (s.step i) := by
  have hprogram : (s.step i).programs (!i) = s.programs (!i) :=
    Interleaving.programs_step_of_ne (by simp)
  have hread' : hasRead (s.step i) (!i) = true := by
    rw [hasRead_step hcall, hread]
    rfl
  have hgoesOn : (s.step i).tree = s.tree → adders (s.step i) = s.adders →
      Idle dir calls (s.step i) i → Phase dir calls rs (s.step i) := by
    intro htree hadders hself
    refine .rotating (!i) (hprogram ▸ hrotating) hread' (hadders ▸ hmem) (fun t' hrun => ?_) ?_
      (hadders ▸ honce)
    · rw [htree, hprogram] at hrun
      rw [hadders, Bool.not_not]
      refine (hends t' hrun).mono ?_
      rw [need_of_call hcall]
      exact need_le_one _ _
    · rwa [Bool.not_not]
  cases hidle.turn hcall with
  | make hmake hmaking huses hnot =>
    have hadders := adders_step_of_not_isAppend hmake (isAppend_of_isMaking hmaking)
    refine hgoesOn ?_ hadders (.making (Interleaving.programs_step_self hmake) (huses _) ?_)
    · rw [Interleaving.tree_step hmake]
      exact s.tree.perform_of_not_isChange (isChange_eq_false hmake hapart hrotating hread)
    · rwa [hadders]
  | add hadd _ =>
    have hadd' : s.programs i = call (.append (path dir) 0o644 (recordLine (calls i).1)) _ := hadd
    exact absurd (isChange_eq_false hadd' hapart hrotating hread) nofun
  | read hprogram' hmem' =>
    obtain ⟨htree, hadders, hread'', hend⟩ := step_read hprogram'
    obtain ⟨fault, hfault⟩ | hdone | ⟨text, lines, -, -, hrotate⟩ := hend
    · exact .failed i fault hfault
    · exact hgoesOn htree hadders (.ended hdone (hadders ▸ hmem'))
    · exact .stuck (forall_bool i (.inl ⟨lines, _, hrotate⟩) (hprogram ▸ hrotating))
        (forall_bool i hread'' hread')

/-- A turn does not help when both rotate. -/
theorem Phase.step_stuck (hrotating : ∀ i, Rotating dir (s.programs i))
    (hread : ∀ i, s.hasRead i = true) (hcall : s.programs i = call c next)
    (hapart : (s.changes i && s.rotates (!i)) = false) : Phase dir calls rs (s.step i) := by
  have hchange := isChange_eq_false hcall hapart (hrotating (!i)) (hread (!i))
  have hprogram : (s.step i).programs (!i) = s.programs (!i) :=
    Interleaving.programs_step_of_ne (by simp)
  have hself := Interleaving.programs_step_self hcall
  have hself' := hrotating i
  rw [hcall] at hself'
  obtain ⟨result, hdone, hbad⟩ | hrotating' := hself'.step (s.tree.perform c).1
  · rw [hdone] at hself
    rcases result with fault | _
    · exact .failed i fault hself
    · exact absurd rfl (hbad hchange)
  · rw [← hself] at hrotating'
    refine .stuck (forall_bool i hrotating' (hprogram ▸ hrotating (!i))) fun j => ?_
    rw [hasRead_step hcall, hread j]
    rfl

theorem Phase.step (h : Phase dir calls rs s) (hstorable : ∀ i, (calls i).1.IsStorable)
    (hcall : s.programs i = call c next) (hapart : (s.changes i && s.rotates (!i)) = false) :
    Phase dir calls rs (s.step i) := by
  cases h with
  | quiet hstores hidle honce => exact step_quiet hstorable hstores hidle honce hcall
  | rotating j hrotating hread hmem hends hidle honce =>
    by_cases hj : j = i
    · subst hj
      exact step_rotating hrotating hread hmem hends hidle honce hcall
    · obtain rfl := Bool.eq_not.mpr hj
      rw [Bool.not_not] at hends hidle
      exact step_beside hrotating hread hmem hends hidle honce hcall hapart
  | stuck hrotating hread => exact step_stuck hrotating hread hcall hapart
  | failed j fault hdone => exact .failed j fault (Interleaving.programs_step_of_done hdone)

/-! ### All turns -/

theorem Phase.run (h : Phase dir calls rs s) (hstorable : ∀ i, (calls i).1.IsStorable)
    {schedule : List Bool} (hapart : s.isApart schedule = true) :
    Phase dir calls rs (s.run schedule) := by
  induction schedule generalizing s with
  | nil => exact h
  | cons i schedule ih =>
    rw [isApart, Bool.and_eq_true, Bool.not_eq_true'] at hapart
    refine ih ?_ hapart.2
    cases hcall : s.programs i with
    | done result => rwa [Interleaving.step, hcall]
    | call c next => exact h.step hstorable hcall hapart.1

theorem Phase.start (hstores : Stores t dir rs 2) (calls : Bool → Run) :
    Phase dir calls rs (start t dir calls) := by
  refine .quiet ?_ (fun i => ?_) .nil
  · rw [show adders (Overlap.start t dir calls) = [] from rfl, List.map_nil, List.append_nil]
    refine hstores.mono ?_
    have hfirst := need_le_one (Overlap.start t dir calls) false
    have hsecond := need_le_one (Overlap.start t dir calls) true
    omega
  · exact .making (append_eq ..) (Tree.isMaking_makeDirectoriesWith _ (.refl dir)) nofun

/-- Nothing is lost when both come to a good end. -/
theorem Phase.stores (h : Phase dir calls rs s) (hdone : ∀ i, s.programs i = done (.ok ())) :
    Stores s.tree dir (rs ++ s.adders.map fun i => (calls i).1) 0 ∧ s.adders.Perm [false, true] := by
  have hnot : ∀ i, ¬ Rotating dir (s.programs i) := fun i hrotating => by
    have hover := hrotating.isOver
    rw [hdone i] at hover
    cases hover
  cases h with
  | quiet hstores hidle honce =>
    refine ⟨hstores.mono (Nat.zero_le _), ?_⟩
    have hmem : ∀ i, i ∈ s.adders := by
      intro i
      cases hidle i with
      | @making m hprogram =>
        have hprogram := (hdone i).symm.trans hprogram
        rcases m with (fault | _) | ⟨c, next⟩ <;> cases hprogram
      | reading hprogram hmem => exact hmem
      | ended _ hmem => exact hmem
    refine (List.perm_ext_iff_of_nodup honce (by decide)).mpr fun i => ?_
    simp [hmem i]
  | rotating i hrotating => exact absurd hrotating (hnot i)
  | stuck hrotating => exact absurd (hrotating true) (hnot true)
  | failed i fault hprogram => exact absurd ((hdone i).symm.trans hprogram) nofun

end Overlap

theorem Kept.stores {u : Tree} {place : NodePath} {c : Bytes → Option Node} {volumes : List Volume}
    {active : List HistoryRecord} {runs : List Run} (h : Kept t dir runs u place c volumes active)
    (hfew : volumes.length < 4) (hruns : runs.length + 2 < 2 ^ 63) :
    Stores u dir (recordsOf volumes ++ active) 2 := by
  refine ⟨place, c, volumes, active, ⟨h.shelf, h.whole, h.storable, ?_, fun v hv => ?_⟩, rfl⟩
  · rw [maxArchives]
    omega
  · have hlatest := h.latest v hv
    omega

/-- Two appends to a history with few archives, in which nothing is changed while
the other one rotates, leave all records if both succeed, and the new ones in the
order in which they were added. -/
theorem records_overlap {u : Tree} {runs : List Run} {calls : Bool → Run} {schedule : List Bool}
    (hproper : t.IsProper) (hempty : t.listAt dir = .ok [])
    (hlength : (Path.clean dir).length + 45 < Tree.maxPath) (hruns : runs.length + 2 < 2 ^ 63)
    (hstorable : ∀ x ∈ runs, x.1.IsStorable) (hreached : t.run (appendAll dir runs) = (.ok (), u))
    (hfew : ∀ found, (u.run (archives dir)).1 = .ok found → found.length < 4)
    (hcalls : ∀ i, (calls i).1.IsStorable)
    (hapart : (Overlap.start u dir calls).isApart schedule = true)
    (hdone : ∀ i, ((Overlap.start u dir calls).run schedule).programs i = done (.ok ())) :
    ∃ earlier order, (u.run (records dir)).1 = .ok earlier ∧ order.Perm [false, true] ∧
      order = Overlap.adders ((Overlap.start u dir calls).run schedule) ∧
      (((Overlap.start u dir calls).run schedule).tree.run (records dir)).1 =
        .ok (earlier ++ order.map fun i => (calls i).1) := by
  obtain ⟨_, hopens⟩ := hproper.opens (Tree.isDirectory_of_listAt hempty)
  have hroom : ∀ name, Path.IsName name → name.length ≤ 44 → Tree.HasRoom dir name :=
    fun _ => hasRoom_of_length hopens.ne_nil hlength
  obtain ⟨place, c, hfirst⟩ := Kept.empty hproper hempty (hroom _ isName_fileName (by decide))
  obtain ⟨u', c', volumes, active, hkept⟩ := hfirst.run hroom (by omega) hstorable
  obtain rfl : u' = u := congrArg Prod.snd (hkept.reached.symm.trans hreached)
  have hvolumes : volumes.length < 4 := by
    have hlisted := hfew _ (congrArg Prod.fst hkept.run_archives)
    rwa [List.length_map] at hlisted
  have hphase := (Overlap.Phase.start (hkept.stores hvolumes hruns) calls).run hcalls hapart
  obtain ⟨hstores, hperm⟩ := hphase.stores hdone
  refine ⟨_, _, congrArg Prod.fst hkept.run_records, hperm, rfl, ?_⟩
  rw [hstores.run_records]

/-! ### A record that is lost -/

def cleared : Tree where
  nodes := [(["s"], .directory 0o755)]

def once : Tree := (cleared.run (appendAll "s" [({ runId := "a" }, 0)])).2

def rivals : Bool → Run
  | false => ({ runId := "b" }, 1)
  | true => ({ runId := "c" }, 1000)

/-- The second append adds its line first, and reads while the first one rotates. -/
def mixed : List Bool := [false, true, true, false, false, true, false, false, false, false]

theorem records_overlap_mixed :
    (Overlap.start once "s" rivals).isApart mixed = true ∧
      ∃ earlier order, (once.run (records "s")).1 = .ok earlier ∧ order.Perm [false, true] ∧
        order = Overlap.adders ((Overlap.start once "s" rivals).run mixed) ∧
        (((Overlap.start once "s" rivals).run mixed).tree.run (records "s")).1 =
          .ok (earlier ++ order.map fun i => (rivals i).1) := by
  have hapart : (Overlap.start once "s" rivals).isApart mixed = true := by decide +kernel
  have hdone : ∀ i, Overlap.hasSucceeded (((Overlap.start once "s" rivals).run mixed).programs i) =
      true := by decide +kernel
  have hreached : cleared.run (appendAll "s" [({ runId := "a" }, 0)]) = (.ok (), once) :=
    Prod.ext (by decide +kernel) rfl
  have hnone : (archivesAt once "s").toOption = some [] := by decide +kernel
  refine ⟨hapart, records_overlap (Tree.isProper_of_root (by decide) rfl) (by decide +kernel)
    (by decide) (by decide) (by decide +kernel) hreached ?_ (by decide +kernel) hapart
      fun i => Overlap.hasSucceeded_iff.mp (hdone i)⟩
  intro found hfound
  rw [run_archives_eq] at hfound
  have hfound := congrArg Except.toOption hfound
  rw [hnone] at hfound
  cases hfound
  decide

/-- The second append comes in between the first one's reading of the lines and
its rotation. -/
def lossy : List Bool := [false, false, false, true, true, true, false, false, false, false]

set_option maxRecDepth 4000 in
/-- Both appends succeed, and the record of the second one is gone. -/
theorem append_loses_record :
    (once.run (archives "s")).1.toOption = some [] ∧
      (once.run (records "s")).1 = .ok [{ runId := "a" }] ∧
      (∀ i, Overlap.hasSucceeded (((Overlap.start once "s" rivals).run lossy).programs i) = true) ∧
      (((Overlap.start once "s" rivals).run lossy).tree.run (records "s")).1 =
        .ok [{ runId := "a" }, { runId := "b" }] := by
  refine ⟨?_, ?_, by decide +kernel, ?_⟩
  · rw [run_archives_eq]
    decide +kernel
  · rw [run_records_eq]
    decide +kernel
  · rw [run_records_eq]
    decide +kernel

end History

end ScanTriage
