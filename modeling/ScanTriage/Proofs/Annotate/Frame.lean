import ScanTriage.Proofs.Annotate.Replace

/-!
# What a run leaves alone

A run that fails changes no file: all it may leave is its state directory and
the lock file in there, and the lock is free again. A run that gives the
annotated report back changes nothing at all, and gives back what the same run
would have written. A run that writes changes the content of the report and
nothing else.
-/

namespace ScanTriage

namespace Tree

variable {t u : Tree} {path : Bytes} {id : FileId}

/-! ## Taking a lock -/

theorem openFileAt_eq_ok :
    t.openFileAt path = .ok id ↔
      ∃ place data mode, t.resolve path = .ok place ∧ t.find? place = some (.file id data mode) := by
  unfold openFileAt
  cases hresolve : t.resolve path with
  | error reason => simp [lookup_of_error hresolve, refuse]
  | ok place =>
    rw [lookup_of_resolve hresolve]
    rcases hfind : t.find? place with _ | ⟨id', data, mode⟩ | mode <;> simp [hfind, refuse]

/-- A lock was taken on a file, which was made if it was missing. -/
structure TakesLock (t : Tree) (path : Bytes) (id : FileId) (u : Tree) : Prop where
  sound : u.IsSound
  keeps : t.Keeps u
  free : id ∉ t.locks
  locks : u.locks = id :: t.locks
  opens : u.openFileAt path = .ok id
  find? : ∀ r, u.find? r = t.find? r ∨
    t.find? r = none ∧ r = t.goal path ∧ u.find? r = some (.file id [] 0o600)

theorem Keeps.refl (t : Tree) : t.Keeps t := ⟨rfl, fun _ hplace => hplace⟩

theorem Keeps.isDirectory (hkeeps : t.Keeps u) (h : t.IsSound) (hdir : t.isDirectory path = true) :
    u.isDirectory path = true := by
  obtain ⟨place, hresolve, hplace⟩ := isDirectory_iff.mp hdir
  refine isDirectory_iff.mpr ⟨place, hkeeps.resolve h.toIsProper hresolve, ?_⟩
  exact (hkeeps.reaches place (h.reaches hplace)).isDirectoryAt

/-- Locks have no part in where paths lead. -/
theorem keeps_locks (t : Tree) (locks : List FileId) : t.Keeps { t with locks := locks } :=
  ⟨rfl, fun _ hplace => hplace⟩

theorem openFileAt_of_keeps (hkeeps : t.Keeps u) (h : t.IsProper)
    (hfind : ∀ r node, t.find? r = some node → u.find? r = some node)
    (hopens : t.openFileAt path = .ok id) : u.openFileAt path = .ok id := by
  obtain ⟨place, data, mode, hresolve, hfile⟩ := openFileAt_eq_ok.mp hopens
  exact openFileAt_eq_ok.mpr ⟨place, data, mode, hkeeps.resolve h hresolve, hfind _ _ hfile⟩

/-- What taking the lock on a file leaves. -/
theorem IsSound.takesLock (hu : u.IsSound) (hkeeps : t.Keeps u)
    (hlocks : u.locks = t.locks) (hfree : id ∉ t.locks) (hopens : u.openFileAt path = .ok id)
    (hfind : ∀ r, u.find? r = t.find? r ∨
      t.find? r = none ∧ r = t.goal path ∧ u.find? r = some (.file id [] 0o600)) :
    t.TakesLock path id { u with locks := id :: u.locks } where
  sound := by
    obtain ⟨place, data, mode, -, hfile⟩ := openFileAt_eq_ok.mp hopens
    refine ⟨⟨hu.distinct, hu.working⟩, hu.parents, hu.made, fun id' hid => ?_⟩
    rcases List.mem_cons.mp hid with rfl | hid
    · exact hu.made hfile _ rfl
    · exact hu.locked id' hid
  keeps := hkeeps.trans (keeps_locks u _)
  free := hfree
  locks := congrArg _ hlocks
  opens := openFileAt_of_keeps (keeps_locks u _) hu.toIsProper (fun _ _ hnode => hnode) hopens
  find? := hfind

/-- What trying to take a lock can do. -/
theorem IsSound.lockAt_cases (h : t.IsSound) (path : Bytes) :
    (∃ fault, t.lockAt path = (.error (.file fault), t)) ∨
      (∃ id, t.openFileAt path = .ok id ∧ id ∈ t.locks ∧ t.lockAt path = (.error .busy, t)) ∨
      ∃ id u, t.TakesLock path id u ∧ t.lockAt path = (.ok id, u) := by
  unfold lockAt openOrMakeAt
  cases hopen : t.openFileAt path with
  | ok id =>
    dsimp only
    by_cases hheld : id ∈ t.locks
    · rw [if_pos (by simpa using hheld)]
      exact .inr (.inl ⟨id, rfl, hheld, rfl⟩)
    · rw [if_neg (by simpa using hheld)]
      refine .inr (.inr ⟨id, _, ?_, rfl⟩)
      exact h.takesLock (.refl t) rfl hheld hopen fun r => .inl rfl
  | error fault =>
    dsimp only
    unfold editAt
    cases hresolve : t.resolve path with
    | error reason => exact .inl ⟨_, rfl⟩
    | ok place =>
      dsimp only
      rcases hfind : t.find? place with _ | ⟨id, data, mode⟩ | mode
      · -- The file is made, so nobody can have locked it.
        have hnew : t.serial ∉ t.locks := fun hmem => Nat.lt_irrefl _ (h.locked _ hmem)
        have hnot := not_isDirectoryAt_of_none hfind
        have hnil := ne_nil_of_not_isDirectoryAt hnot
        have hkeeps : t.Keeps (t.addFile place [] 0o600).2 := keeps_addFile hnot
        have hfound : (t.addFile place [] 0o600).2.find? place =
            some (.file t.serial [] 0o600) := by
          rw [find?_addFile hnil, if_pos rfl]
        have hopens : (t.addFile place [] 0o600).2.openFileAt path = .ok t.serial :=
          openFileAt_eq_ok.mpr ⟨place, [], 0o600, hkeeps.resolve h.toIsProper hresolve, hfound⟩
        have hcontains : (t.addFile place (id []) 0o600).2.locks.contains
            (t.addFile place (id []) 0o600).1 = false := by
          change t.locks.contains t.serial = false
          simpa using hnew
        dsimp only
        rw [hcontains]
        refine .inr (.inr ⟨t.serial, _, ?_, rfl⟩)
        refine (h.addFile (h.isDirectoryAt_dropLast hresolve hnot) hnot _ _).takesLock hkeeps rfl
          hnew hopens fun r => ?_
        by_cases hr : r = place
        · rw [hr]
          exact .inr ⟨hfind, eq_goal_of_resolve hresolve, hfound⟩
        · refine .inl ?_
          by_cases hroot : r = []
          · rw [hroot]
            rfl
          · rw [find?_addFile hroot, if_neg hr]
      · rw [openFileAt_eq_ok.mpr ⟨place, data, mode, hresolve, hfind⟩] at hopen
        cases hopen
      · exact .inl ⟨_, rfl⟩

theorem lockAt_of_locked (hopens : t.openFileAt path = .ok id) (hlocked : id ∈ t.locks) :
    t.lockAt path = (.error .busy, t) := by
  rw [lockAt, openOrMakeAt, hopens]
  exact if_pos (by simpa using hlocked)

/-- Giving back a lock that was taken leaves the locks as they were. -/
theorem locks_unlock_of_free {locks : List FileId} (hfree : id ∉ locks)
    (hlocks : u.locks = id :: locks) : (u.unlock id).locks = locks := by
  rw [unlock, hlocks, List.filter_cons_of_neg (by simp), List.filter_eq_self]
  rintro other hother
  simpa using fun heq : other = id => hfree (heq ▸ hother)

theorem IsSound.unlock (h : t.IsSound) (id : FileId) : (t.unlock id).IsSound where
  toIsProper := ⟨h.distinct, h.working⟩
  parents := h.parents
  made := h.made
  locked other hother := h.locked other (List.mem_of_mem_filter hother)

theorem Replaced.unlock {q : NodePath} {data : Bytes} {mode : Nat}
    (h : t.Replaced q data mode u) (id : FileId) :
    (t.unlock id).Replaced q data mode (u.unlock id) where
  sound := h.sound.unlock id
  keeps := ⟨h.keeps.working, h.keeps.reaches⟩
  locks := congrArg (List.filter _) h.locks
  others := h.others
  goal := h.goal
  same := h.same

end Tree

namespace Annotate

open ScanTriage.Tree (IsSound IsPaved TakesLock Keeps IsCleaned Replaced ahead startOf)
open ScanTriage.Path (pieces)

variable {t u v : Tree} {dir path : Bytes} {q : NodePath} {options : Options} {engine : Engine}
  {outcome : Outcome} {out : Bytes} {mode : Nat}

/-! ## Before the report is read -/

/-- A place is as it was, or nothing was there and it was needed for the lock: a
directory on the way to the state directory, or the lock file in it. -/
inductive Untouched (t : Tree) (dir : Bytes) (t' : Tree) (q : NodePath) : Prop where
  | same (h : t'.find? q = t.find? q)
  | directory (hunused : t.find? q = none) (front : List Bytes) (hfront : front <+: pieces dir)
    (hplace : q = ahead (t.startOf dir) front) (hmade : t'.find? q = some (.directory 0o755))
  | lock (hunused : t.find? q = none) (hplace : q = t.goal (lockPath dir)) (id : FileId)
    (hmade : t'.find? q = some (.file id [] 0o600))

theorem Untouched.of_none (h : Untouched t dir u q) (hnode : u.find? q = none) :
    t.find? q = none := by
  cases h with
  | same h => rw [← h, hnode]
  | directory hunused => exact hunused
  | lock hunused => exact hunused

/-- Which trees look the same does not matter to a place. -/
theorem Untouched.congr (h : Untouched t dir u q) (hfind : v.find? q = u.find? q) :
    Untouched t dir v q := by
  cases h with
  | same h => exact .same (hfind.trans h)
  | directory hunused front hfront hplace hmade =>
    exact .directory hunused front hfront hplace (hfind.trans hmade)
  | lock hunused hplace id hmade => exact .lock hunused hplace id (hfind.trans hmade)

/-- A tree in which at most the lock was prepared. -/
structure Prepared (t : Tree) (dir : Bytes) (u : Tree) : Prop where
  sound : u.IsSound
  keeps : t.Keeps u
  untouched : ∀ q, Untouched t dir u q

theorem Prepared.refl (h : t.IsSound) (dir : Bytes) : Prepared t dir t :=
  ⟨h, .refl t, fun _ => .same rfl⟩

theorem Prepared.of_isPaved (hu : u.IsSound) (h : t.IsPaved dir u) : Prepared t dir u := by
  obtain ⟨ps, hps, rfl⟩ := h
  refine ⟨hu, ⟨(t.pave_fields _ _).1, fun place hplace r hr => ?_⟩, fun q => ?_⟩
  · obtain ⟨mode, hmode⟩ := hplace r hr
    exact ⟨mode, Tree.find?_pave_of_some hmode _ _⟩
  · obtain hsame | ⟨hnone, hmade, front, hfront, hplace⟩ := t.find?_pave (t.startOf dir) ps q
    · exact .same hsame
    · exact .directory hnone front (hfront.trans hps) hplace hmade

theorem Prepared.takesLock {id : FileId} (h : Prepared t dir u)
    (hlock : u.TakesLock (lockPath dir) id v) : Prepared t dir v where
  sound := hlock.sound
  keeps := h.keeps.trans hlock.keeps
  untouched q := by
    obtain hsame | ⟨hnone, hplace, hmade⟩ := hlock.find? q
    · exact (h.untouched q).congr hsame
    · rw [Tree.goal_of_working h.keeps.working] at hplace
      exact .lock ((h.untouched q).of_none hnone) hplace id hmade

theorem Prepared.unlock (h : Prepared t dir u) (id : FileId) : Prepared t dir (u.unlock id) where
  sound := h.sound.unlock id
  keeps := ⟨h.keeps.working, h.keeps.reaches⟩
  untouched q := (h.untouched q).congr rfl

theorem draft_nil (options : Options) (engine : Engine) (path : Bytes) :
    ∃ fault, draft options engine path [] = .error fault := ⟨_, rfl⟩

/-- A report that can be annotated was there before the lock was prepared. -/
theorem Prepared.makes (ht : t.IsSound) (hclean : IsCleaned path) (h : Prepared t dir u)
    (hmakes : Makes options engine path u q outcome out mode) :
    Makes options engine path t q outcome out mode := by
  obtain ⟨hresolve, ⟨id, data, hfile, hdraft⟩, hpath⟩ := hmakes
  obtain ⟨hgoal, hfits, -⟩ := Tree.resolve_eq_ok_iff.mp hresolve
  rw [Tree.goal_of_working h.keeps.working] at hgoal
  have hbefore : t.find? q = some (.file id data mode) := by
    cases h.untouched q with
    | same hsame => rw [← hsame, hfile]
    | directory _ _ _ _ hmade => exact absurd (hmade.symm.trans hfile) nofun
    | lock _ _ id' hmade =>
      -- The lock file is empty when it is made, so it is no report.
      obtain ⟨fault, hempty⟩ := draft_nil options engine path
      cases hmade.symm.trans hfile
      rw [hempty] at hdraft
      cases hdraft
  refine ⟨?_, ⟨id, data, hbefore, hdraft⟩, hpath⟩
  rw [hgoal] at hbefore ⊢
  exact ht.resolve_of_file hclean hfits hbefore (Tree.not_isDirectoryAt_of_file hbefore)

/-! ## Whole runs -/

/-- How a run that writes ends: with a fault, and at most the lock prepared, or
with the report replaced. -/
inductive WritingEnds (options : Options) (path : Bytes) (t : Tree) :
    Except Fault Outcome → Tree → Prop where
  | failed {fault : Fault} {u : Tree} (h : Prepared t (stateDirOf options path) u) :
    WritingEnds options path t (.error fault) u
  | stored {engine : Engine} {outcome : Outcome} {q : NodePath} {out : Bytes} {mode : Nat}
    {u v : Tree} (hengine : options.engine? = some engine)
    (hprepared : Prepared t (stateDirOf options path) u)
    (hmakes : Makes options engine (reportPath options path) t q outcome out mode)
    (hout : outcome.output? = none) (hreplaced : Replaced u q out mode v) :
    WritingEnds options path t (.ok outcome) v

theorem isCleaned_reportPath (options : Options) (path : Bytes) :
    IsCleaned (reportPath options path) := Tree.isCleaned_absolute _ _

theorem run_inside (options : Options) (engine : Engine) (path : Bytes) (id : FileId) (t : Tree) :
    t.run (inside options engine path id) =
      ((t.run (session options engine path)).1, (t.run (session options engine path)).2.unlock id) :=
  Tree.run_bind ..

/-- A run gets the lock, or it ends at once. -/
theorem run_enter (h : t.IsSound) (dir : Bytes) (inside : FileId → FileProgram Result) :
    (∃ fault, t.run (enter dir inside (.ok ())) = ((.error fault, []), t)) ∨
      ∃ id u, t.TakesLock (lockPath dir) id u ∧
        t.run (enter dir inside (.ok ())) = u.run (inside id) := by
  have hrun : t.run (enter dir inside (.ok ())) =
      (t.lockAt (lockPath dir)).2.run (proceedWith dir inside (t.lockAt (lockPath dir)).1) := rfl
  rw [hrun]
  obtain ⟨fault, hrefused⟩ | ⟨id, -, -, hbusy⟩ | ⟨id, u, hlock, htaken⟩ :=
    h.lockAt_cases (lockPath dir)
  · rw [hrefused]
    exact .inl ⟨_, rfl⟩
  · rw [hbusy]
    exact .inl ⟨_, rfl⟩
  · rw [htaken]
    exact .inr ⟨id, u, hlock, rfl⟩

theorem run_writing (h : t.IsSound) (hwrites : options.toOutput = false) (path : Bytes) :
    WritingEnds options path t (t.run (program options path)).1.1 (t.run (program options path)).2 ∧
      (t.run (program options path)).2.locks = t.locks := by
  rw [program_eq]
  cases hengine : options.engine? with
  | none => exact ⟨.failed (.refl h _), rfl⟩
  | some engine =>
    dsimp only
    split
    · exact ⟨.failed (.refl h _), rfl⟩
    rw [if_neg (by simp [hwrites]), Tree.run_bind]
    obtain ⟨hsound, hpaved, -⟩ := h.run_makeDirectories (stateDirOf options path)
    have hlocks : (t.run (.makeDirectories (stateDirOf options path))).2.locks = t.locks := by
      obtain ⟨ps, -, hps⟩ := hpaved
      rw [hps, (t.pave_fields _ _).2.2]
    have hprepared := Prepared.of_isPaved hsound hpaved
    generalize t.run (.makeDirectories (stateDirOf options path)) = made at *
    obtain ⟨fault | _, u⟩ := made
    · exact ⟨.failed hprepared, hlocks⟩
    obtain ⟨fault, hrun⟩ | ⟨id, v, hlock, hrun⟩ := run_enter hsound (stateDirOf options path)
      (inside options engine (reportPath options path))
    · rw [hrun]
      exact ⟨.failed hprepared, hlocks⟩
    rw [hrun, run_inside]
    have hprepared' := hprepared.takesLock hlock
    have hends := (along_session hlock.sound (isCleaned_reportPath options path) options engine).run
    generalize v.run (session options engine (reportPath options path)) = ended at hends ⊢
    obtain ⟨⟨result, events⟩, w⟩ := ended
    rw [← hlocks]
    cases hends with
    | failed => exact ⟨.failed (hprepared'.unlock id), Tree.locks_unlock_of_free hlock.free hlock.locks⟩
    | shown hshows => exact absurd (hwrites.symm.trans hshows) nofun
    | stored _ hmakes hout hreplaced =>
      refine ⟨.stored hengine (hprepared'.unlock id)
        (hprepared'.makes h (isCleaned_reportPath options path) hmakes) hout (hreplaced.unlock id), ?_⟩
      exact Tree.locks_unlock_of_free hlock.free (hreplaced.locks.trans hlock.locks)

/-- How a run that gives the annotated report back ends. -/
inductive ShowingEnds (options : Options) (path : Bytes) (t : Tree) :
    Except Fault Outcome → Prop where
  | failed {fault : Fault} : ShowingEnds options path t (.error fault)
  | shown {engine : Engine} {outcome : Outcome} {q : NodePath} {out : Bytes} {mode : Nat}
    (hengine : options.engine? = some engine)
    (hmakes : Makes options engine (reportPath options path) t q outcome out mode)
    (hout : outcome.output? = some out) : ShowingEnds options path t (.ok outcome)

theorem run_showing (h : t.IsSound) (hshows : options.toOutput = true) (path : Bytes) :
    ShowingEnds options path t (t.run (program options path)).1.1 ∧
      (t.run (program options path)).2 = t := by
  rw [program_eq]
  cases hengine : options.engine? with
  | none => exact ⟨.failed, rfl⟩
  | some engine =>
    dsimp only
    split
    · exact ⟨.failed, rfl⟩
    have hends := (along_session h (isCleaned_reportPath options path) options engine).run
    generalize t.run (session options engine (reportPath options path)) = ended at hends ⊢
    obtain ⟨⟨result, events⟩, w⟩ := ended
    cases hends with
    | failed => exact ⟨.failed, rfl⟩
    | shown _ hmakes hout => exact ⟨.shown hengine hmakes hout, rfl⟩
    | stored hwrites => exact absurd (hshows.symm.trans hwrites) nofun

theorem makes_unique {options' : Options} {outcome' : Outcome} {q' : NodePath} {out' : Bytes}
    {mode' : Nat} (h : Makes options engine path t q outcome out mode)
    (h' : Makes options' engine path t q' outcome' out' mode')
    (hdraft : draft options' engine path = draft options engine path) : out' = out := by
  obtain ⟨hresolve, ⟨id, data, hfile, hdata⟩, -⟩ := h
  obtain ⟨hresolve', ⟨id', data', hfile', hdata'⟩, -⟩ := h'
  cases hresolve.symm.trans hresolve'
  cases hfile.symm.trans hfile'
  rw [hdraft, hdata] at hdata'
  simp only [Except.ok.injEq, Prod.mk.injEq] at hdata'
  exact hdata'.2.2.symm

/-- What a run leaves as it was. -/
structure LeavesAlone (options : Options) (path : Bytes) (t : Tree)
    (result : Except Fault Outcome) (t' : Tree) : Prop where
  /-- No lock is kept, and none of another run is lost. -/
  locks : t'.locks = t.locks
  /-- A run that fails changes nothing but what it needs for the lock. -/
  failed : ∀ fault, result = .error fault → ∀ q, Untouched t (stateDirOf options path) t' q
  /-- A run that gives the annotated report back changes nothing. -/
  shown : options.toOutput = true → t' = t
  /-- What is given back is what the same run writes, if it can write. -/
  output : options.toOutput = true → ∀ outcome, result = .ok outcome →
    ∃ out, outcome.output? = some out ∧ ∀ outcome',
      (t.run (program { options with toOutput := false } path)).1.1 = .ok outcome' →
        (t.run (program { options with toOutput := false } path)).2.readAt
          (reportPath options path) = .ok out
  /-- A run that writes gives the report another content, and keeps its mode. -/
  written : options.toOutput = false → ∀ outcome, result = .ok outcome →
    outcome.output? = none ∧ ∃ q id data id' data' mode,
      t.resolve (reportPath options path) = .ok q ∧ t.find? q = some (.file id data mode) ∧
        t'.find? q = some (.file id' data' mode) ∧
        ∀ r, r ≠ q → Untouched t (stateDirOf options path) t' r

theorem WritingEnds.readAt (h : t.IsSound) (hends : WritingEnds options path t (.ok outcome) v) :
    ∃ engine q out mode, options.engine? = some engine ∧
      Makes options engine (reportPath options path) t q outcome out mode ∧
      v.readAt (reportPath options path) = .ok out := by
  cases hends with
  | stored hengine hprepared hmakes hout hreplaced =>
    obtain ⟨id, hfile⟩ := hreplaced.goal
    have hresolve := (hprepared.keeps.trans hreplaced.keeps).resolve h.toIsProper hmakes.resolve
    exact ⟨_, _, _, _, hengine, hmakes, Tree.readAt_eq_ok.mpr ⟨_, id, _, hresolve, hfile⟩⟩

/-- A run leaves alone what it has no business with, however it ends. -/
theorem run_leavesAlone (h : t.IsSound) (options : Options) (path : Bytes) :
    LeavesAlone options path t (t.run (program options path)).1.1
      (t.run (program options path)).2 := by
  by_cases hshows : options.toOutput = true
  · obtain ⟨hends, hsame⟩ := run_showing h hshows path
    rw [hsame]
    refine ⟨rfl, fun _ _ _ => .same rfl, fun _ => rfl, fun _ outcome hok => ?_, fun hwrites => ?_⟩
    · rw [hok] at hends
      obtain _ | ⟨hengine, hmakes, hout⟩ := hends
      refine ⟨_, hout, fun outcome' hok' => ?_⟩
      have hends' := (@run_writing t { options with toOutput := false } h rfl path).1
      rw [hok'] at hends'
      obtain ⟨engine', q', out', mode', hengine', hmakes', hread⟩ := hends'.readAt h
      cases hengine.symm.trans hengine'
      exact makes_unique hmakes hmakes' rfl ▸ hread
    · exact absurd (hshows.symm.trans hwrites) nofun
  · have hwrites : options.toOutput = false := Bool.eq_false_iff.mpr hshows
    obtain ⟨hends, hlocks⟩ := run_writing h hwrites path
    refine ⟨hlocks, fun fault herror => ?_, fun hshows' => absurd hshows' hshows,
      fun hshows' => absurd hshows' hshows, fun _ outcome hok => ?_⟩
    · rw [herror] at hends
      obtain ⟨hprepared⟩ | _ := hends
      exact hprepared.untouched
    · rw [hok] at hends
      obtain _ | ⟨hengine, hprepared, hmakes, hout, hreplaced⟩ := hends
      obtain ⟨id, data, hfile, -⟩ := hmakes.file
      obtain ⟨id', hfile'⟩ := hreplaced.goal
      refine ⟨hout, _, id, data, id', _, _, hmakes.resolve, hfile, hfile', fun r hr => ?_⟩
      exact (hprepared.untouched r).congr (hreplaced.same r hr)

def desk : Tree where
  nodes := [(["r.json"], .file 0 "\x7b\"findings\":[]\x7d" 0o640), (["notes"], .file 1 "later" 0o600)]
  serial := 2

def deskOptions (toOutput : Bool) : Options where
  engine? := some { maxFindings := 5, runId? := some "run" }
  toOutput := toOutput
  working := "/"

theorem run_leavesAlone_desk :
    (desk.run (program (deskOptions false) "r.json")).1.1.isOk = true ∧
      (desk.run (program (deskOptions true) "r.json")).1.1.isOk = true ∧
      ∀ toOutput, LeavesAlone (deskOptions toOutput) "r.json" desk
        (desk.run (program (deskOptions toOutput) "r.json")).1.1
        (desk.run (program (deskOptions toOutput) "r.json")).2 := by
  refine ⟨by decide +kernel, by decide +kernel, fun toOutput => run_leavesAlone ?_ _ _⟩
  exact Tree.isSound_of_root (by decide) rfl (by decide) (by decide) (by decide)

end Annotate

end ScanTriage
