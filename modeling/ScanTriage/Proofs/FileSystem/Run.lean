import ScanTriage.Proofs.FileSystem.Folder

/-!
# Running programs

A program runs on a tree command by command, so a sequence of two programs runs
the second on the tree that the first one leaves (`run_bind`); a task stops at
its first fault (`run_task_bind`). A directory that was made is there
(`isDirectory_makeDirectoryAt`).
-/

namespace ScanTriage

namespace Tree

variable {α β : Type} {t t' : Tree}

/-! ## Programs -/

@[simp]
theorem run_done (a : α) (t : Tree) : t.run (.done a) = (a, t) := rfl

theorem run_call (c : FileCommand) (next : c.Answer → FileProgram α) (t : Tree) :
    t.run (.call c next) = (t.perform c).2.run (next (t.perform c).1) := rfl

@[simp]
theorem run_perform (c : FileCommand) (t : Tree) : t.run (.perform c) = t.perform c := rfl

theorem run_bind (p : FileProgram α) (k : α → FileProgram β) (t : Tree) :
    t.run (p >>= k) = (t.run p).2.run (k (t.run p).1) := by
  change t.run (p.bind k) = _
  induction p generalizing t with
  | done a => rfl
  | call c next ih => exact ih (t.perform c).1 (t.perform c).2

theorem run_bind_of_run {p : FileProgram α} {a : α} (h : t.run p = (a, t'))
    (k : α → FileProgram β) : t.run (p >>= k) = t'.run (k a) := by
  rw [run_bind, h]

/-! ## Tasks -/

theorem run_task_bind (x : FileTask α) (f : α → FileTask β) (t : Tree) :
    t.run (x >>= f : FileTask β) =
      match t.run x with
      | (.ok a, t') => t'.run (f a)
      | (.error fault, t') => (.error fault, t') := by
  have hbind : t.run (x >>= f : FileTask β) = (t.run x).2.run (ExceptT.bindCont f (t.run x).1) :=
    run_bind x (ExceptT.bindCont f) t
  rw [hbind]
  rcases t.run x with ⟨_ | _, t'⟩ <;> rfl

theorem run_task_ok {x : FileTask α} {a : α} (h : t.run x = (.ok a, t')) (f : α → FileTask β) :
    t.run (x >>= f : FileTask β) = t'.run (f a) := by
  rw [run_task_bind, h]

theorem run_task_error {x : FileTask α} {fault : Fault} (h : t.run x = (.error fault, t'))
    (f : α → FileTask β) : t.run (x >>= f : FileTask β) = (.error fault, t') := by
  rw [run_task_bind, h]

/-- A program as a step of a task. -/
theorem run_task_lift {p : FileProgram α} {a : α} (h : t.run p = (a, t')) (f : α → FileTask β) :
    t.run ((liftM p : FileTask α) >>= f : FileTask β) = t'.run (f a) := by
  refine run_task_ok ?_ f
  exact run_bind_of_run h (pure ∘ Except.ok)

theorem run_orTell_ok {message : Bytes} {p : FileProgram (Except FileFault α)} {a : α}
    (h : t.run p = (.ok a, t')) : t.run (FileTask.orTell message p) = (.ok a, t') :=
  run_bind_of_run h _

theorem run_orTell_error {message : Bytes} {p : FileProgram (Except FileFault α)}
    {fault : FileFault} (h : t.run p = (.error fault, t')) :
    t.run (FileTask.orTell message p) = (.error (.user message fault.toFault), t') :=
  run_bind_of_run h _

/-! ## Making directories -/

/-- One node at each path, and a working directory that can be reached. -/
structure IsProper (t : Tree) : Prop where
  distinct : (t.nodes.map Prod.fst).Nodup
  working : t.Reaches t.working

theorem isProper_of_root (hdistinct : (t.nodes.map Prod.fst).Nodup) (hworking : t.working = []) :
    t.IsProper where
  distinct := hdistinct
  working q hq := by
    rw [hworking] at hq
    rw [List.prefix_nil.mp hq]
    exact ⟨_, rfl⟩

theorem IsProper.nodup_names (h : t.IsProper) (place : NodePath) : (t.names place).Nodup := by
  have hnames : t.names place = (t.nodes.map Prod.fst).filterMap (nameIn? place) := by
    rw [List.filterMap_map]
    rfl
  rw [hnames]
  refine h.distinct.filterMap fun p q name hp hq => ?_
  rw [Option.mem_def, nameIn?_eq_some] at hp hq
  rw [hp, hq]

theorem IsProper.insert (h : t.IsProper) {place : NodePath} (hnot : ¬ t.IsDirectoryAt place)
    (node : Node) : (t.insert place node).IsProper where
  distinct := by
    refine List.nodup_cons.mpr ⟨fun hmem => ?_, h.distinct.sublist (List.filter_sublist.map _)⟩
    obtain ⟨x, hx, hpath⟩ := List.mem_map.mp hmem
    have hne := (List.mem_filter.mp hx).2
    simp [hpath] at hne
  working := (keeps_insert hnot).reaches _ h.working

theorem IsProper.makeDirectoryAt (h : t.IsProper) (path : Bytes) :
    (t.makeDirectoryAt path).2.IsProper := by
  rw [Tree.makeDirectoryAt]
  split
  · exact h
  · split
    · exact h
    · next hnone =>
      refine h.insert ?_ _
      rintro ⟨mode, hmode⟩
      rw [hnone] at hmode
      cases hmode

def isDirectory (t : Tree) (path : Bytes) : Bool :=
  match t.statAt path with
  | .ok info => info.isDirectory
  | .error _ => false

/-- Makes a directory in one that is there; it may be there already. -/
def makeLastAt (t : Tree) (path : Bytes) : Except FileFault Unit × Tree :=
  match t.makeDirectoryAt path with
  | (.ok _, t) => (.ok (), t)
  | (.error fault, t) => (if t.isDirectory path then .ok () else .error fault, t)

theorem run_isDirectory (t : Tree) (path : Bytes) :
    t.run (.isDirectory path) = (t.isDirectory path, t) := by
  rw [FileProgram.isDirectory, run_bind, run_perform, isDirectory]
  simp only [perform]
  cases t.statAt path <;> rfl

theorem run_makeLast (t : Tree) (path : Bytes) :
    t.run (do
      match ← FileProgram.perform (.makeDirectory path) with
      | .ok _ => FileProgram.done (.ok ())
      | .error fault =>
        FileProgram.done (if ← FileProgram.isDirectory path then .ok () else .error fault)) =
      t.makeLastAt path := by
  rw [run_bind, run_perform, makeLastAt]
  simp only [perform]
  rcases t.makeDirectoryAt path with ⟨_ | _, t'⟩
  · exact run_bind_of_run (run_isDirectory t' path) _
  · rfl

/-- What is done about one directory: nothing if something is there, else it is
made, after those above it. -/
theorem run_makeDirectoriesWith (fuel : Nat) (path : Bytes) (t : Tree) :
    (∃ answer, t.run (.makeDirectoriesWith (fuel + 1) path) = (answer, t)) ∨
      ∃ t₂, (t₂ = t ∨ t₂ = (t.run (.makeDirectoriesWith fuel (Path.above path))).2) ∧
        ((∃ fault, t.run (.makeDirectoriesWith (fuel + 1) path) = (.error fault, t₂)) ∨
          t.run (.makeDirectoriesWith (fuel + 1) path) = t₂.makeLastAt path) := by
  rw [FileProgram.makeDirectoriesWith, run_bind, run_perform]
  simp only [perform]
  split
  · exact .inl ⟨_, rfl⟩
  · refine .inr ?_
    split
    · exact ⟨t, .inl rfl, .inr (run_makeLast t path)⟩
    · rw [run_bind]
      refine ⟨_, .inr rfl, ?_⟩
      generalize t.run (.makeDirectoriesWith fuel (Path.above path)) = x
      obtain ⟨_ | _, t₂⟩ := x
      · exact .inl ⟨_, rfl⟩
      · exact .inr (run_makeLast t₂ path)

theorem IsProper.makeLastAt (h : t.IsProper) (path : Bytes) : (t.makeLastAt path).2.IsProper := by
  have hmade := h.makeDirectoryAt path
  rw [Tree.makeLastAt]
  split <;> simp_all

theorem IsProper.makeDirectoriesWith (h : t.IsProper) (fuel : Nat) (path : Bytes) :
    (t.run (.makeDirectoriesWith fuel path)).2.IsProper := by
  induction fuel generalizing path t with
  | zero => exact h
  | succ fuel ih =>
    obtain ⟨answer, hrun⟩ | ⟨t₂, ht₂, ⟨fault, hrun⟩ | hrun⟩ :=
      run_makeDirectoriesWith fuel path t <;> rw [hrun]
    · exact h
    · rcases ht₂ with rfl | rfl
      · exact h
      · exact ih h _
    · rcases ht₂ with rfl | rfl
      · exact h.makeLastAt path
      · exact (ih h _).makeLastAt path

theorem IsProper.makeDirectories (h : t.IsProper) (path : Bytes) :
    (t.run (.makeDirectories path)).2.IsProper := h.makeDirectoriesWith _ path

/-- Slashes at the end of a path ask for a directory, no more. -/
theorem walk_components_slashes {path trimmed : Bytes} {place start : NodePath}
    (hpath : ∃ k, path = trimmed ++ List.replicate k Bytes.slash) (hdir : t.IsDirectoryAt place)
    (h : t.walk start (components trimmed) = .ok place)
    (hlast : trimmed.getLast? ≠ some Bytes.slash) : t.walk start (components path) = .ok place := by
  obtain ⟨_ | k, rfl⟩ := hpath
  · simpa using h
  · have hslashes : (Bytes.split Bytes.slash (List.replicate k Bytes.slash)).filter
        (fun p => !p.isEmpty) = [] := by
      rw [List.filter_eq_nil_iff]
      intro p hp
      obtain ⟨hslash, hmem⟩ := Bytes.mem_split hp
      cases p with
      | nil => simp
      | cons b p =>
        have hb := (List.mem_replicate.mp (hmem b List.mem_cons_self)).2
        exact absurd (hb ▸ List.mem_cons_self) hslash
    have hends : (trimmed ++ Bytes.slash :: List.replicate k Bytes.slash).getLast? =
        some Bytes.slash := by
      rw [← List.replicate_succ, List.replicate_succ', ← List.append_assoc]
      simp
    rw [List.replicate_succ, components, Bytes.split_append, List.filter_append, hslashes,
      List.append_nil, if_pos (by simp [hends])]
    rw [components, if_neg (by simpa using hlast)] at h
    exact walk_append_eq_ok.mpr ⟨place, h, walk_singleton_eq_ok.mpr ⟨hdir, .inl ⟨rfl, rfl⟩⟩⟩

/-- What making one directory can do. -/
theorem makeDirectoryAt_cases (t : Tree) (path : Bytes) :
    (∃ fault, t.makeDirectoryAt path = (.error fault, t)) ∨
      ∃ place, path.length < maxPath ∧ t.resolve (Path.trimmed path) = .ok place ∧
        t.find? place = none ∧
        t.makeDirectoryAt path = (.ok (), t.insert place (.directory 0o755)) := by
  unfold makeDirectoryAt
  split
  · exact .inl ⟨_, rfl⟩
  · next place hresolve =>
    split
    · exact .inl ⟨_, rfl⟩
    · next hnone =>
      by_cases hlong : maxPath ≤ path.length
      · rw [if_pos hlong] at hresolve
        have hlength := (resolve_eq_ok.mp hresolve).1.2.2
        omega
      · rw [if_neg hlong] at hresolve
        exact .inr ⟨place, by omega, hresolve, hnone, rfl⟩

theorem isDirectory_makeDirectoryAt {path : Bytes} (hproper : t.IsProper)
    (hlength : path.length < maxPath) (h : t.makeDirectoryAt path = (.ok (), t')) :
    t'.isDirectory path = true := by
  obtain ⟨fault, hrefused⟩ | ⟨place, -, hresolve, hnone, hmade⟩ := makeDirectoryAt_cases t path
  · rw [hrefused] at h
    cases h
  rw [hmade] at h
  cases h
  obtain ⟨⟨hnul, hne, -⟩, hwalk⟩ := resolve_eq_ok.mp hresolve
  have hnot : ¬ t.IsDirectoryAt place := fun ⟨mode, hmode⟩ => by
    rw [hnone] at hmode
    cases hmode
  have hplace : place ≠ [] := fun hnil => by
    rw [hnil] at hnone
    cases hnone
  have hfound : (t.insert place (.directory 0o755)).find? place = some (.directory 0o755) := by
    rw [find?_insert hplace, if_pos rfl]
  have hstart : t.startOf (Path.trimmed path) =
      (t.insert place (.directory 0o755)).startOf path := by
    rw [startOf, startOf, Path.isAbsolute_trimmed hne]
    rfl
  have hkeeps : t.Keeps (t.insert place (.directory 0o755)) := keeps_insert hnot
  have hwalk' := hkeeps.walk_eq_ok (reaches_startOf hproper.working _) hwalk
  rw [hstart] at hwalk'
  obtain ⟨k, hk⟩ := Path.exists_trimmed path
  have hpath : 0 ∉ path ∧ path ≠ [] := by
    rw [hk]
    exact ⟨by simpa [hnul] using fun _ => (by decide : (0 : UInt8) ≠ Bytes.slash),
      List.append_ne_nil_of_left_ne_nil hne _⟩
  have hresolve' := resolve_eq_ok.mpr ⟨⟨hpath.1, hpath.2, hlength⟩,
    walk_components_slashes ⟨k, hk⟩ ⟨_, hfound⟩ hwalk' (Path.getLast?_trimmed path)⟩
  simp only [isDirectory, statAt, lookup_of_resolve hresolve', hfound]

theorem isDirectory_iff {path : Bytes} :
    t.isDirectory path = true ↔ ∃ place, t.resolve path = .ok place ∧ t.IsDirectoryAt place := by
  unfold isDirectory statAt
  cases hresolve : t.resolve path with
  | error reason => simp [lookup_of_error hresolve, refuse]
  | ok place =>
    rw [lookup_of_resolve hresolve]
    unfold IsDirectoryAt
    rcases hfind : t.find? place with _ | ⟨id, data, mode⟩ | mode <;> simp [hfind, refuse]

theorem IsProper.opens {path : Bytes} (h : t.IsProper) (hdir : t.isDirectory path = true) :
    ∃ place, t.Opens path place := by
  obtain ⟨place, hleads, hplace⟩ := isDirectory_iff.mp hdir
  exact ⟨place, h.working, hleads, hplace⟩

theorem isDirectory_of_listAt {path : Bytes} {l : List DirectoryEntry} (h : t.listAt path = .ok l) :
    t.isDirectory path = true := by
  unfold listAt at h
  unfold isDirectory statAt
  rcases hlookup : t.lookup path with reason | ⟨place, ⟨id, data, mode⟩ | mode⟩ <;>
    rw [hlookup] at h
  · cases h
  · cases h

theorem IsProper.folder {path : Bytes} (h : t.IsProper) (hdir : t.isDirectory path = true) :
    ∃ place c, t.Folder path place c := by
  obtain ⟨place, hopens⟩ := h.opens hdir
  exact ⟨place, _, hopens, h.nodup_names place, fun _ => rfl⟩

theorem run_makeDirectories_of_isDirectory {path : Bytes} (h : t.isDirectory path = true) :
    t.run (.makeDirectories path) = (.ok (), t) := by
  rw [FileProgram.makeDirectories, FileProgram.makeDirectoriesWith, run_bind, run_perform]
  simp only [perform]
  unfold isDirectory at h
  split at h
  · next info hinfo => simp [hinfo, h]
  · cases h

end Tree

end ScanTriage
