import ScanTriage.Proofs.Annotate.Frame
import ScanTriage.Proofs.FileSystem.Interleave

/-!
# Runs at the same time

Runs that annotate one report under one state directory take turns in any
order. Before anyone has the lock, all they do is to make the state directory,
and however their commands are mixed the tree is the one a single run leaves.
From then on only the run that holds the lock changes anything, so the tree is
always the one that the runs which had the lock leave one after the other.
-/

namespace ScanTriage

/-! ## Locks in the record -/

namespace FileCommand

def isGrant : (c : FileCommand) → c.Answer → Bool
  | .lock _, .ok _ => true
  | _, _ => false

def isRefusal : (c : FileCommand) → c.Answer → Bool
  | .lock _, .error .busy => true
  | _, _ => false

def isRelease : FileCommand → Bool
  | .unlock _ => true
  | _ => false

/-- A command has nothing to do with taking locks. -/
def IsQuiet : FileCommand → Prop
  | .lock _ => False
  | _ => True

variable {c : FileCommand}

theorem IsQuiet.isGrant (h : c.IsQuiet) (answer : c.Answer) : c.isGrant answer = false := by
  cases c with
  | lock => exact h.elim
  | _ => rfl

theorem IsQuiet.isRefusal (h : c.IsQuiet) (answer : c.Answer) : c.isRefusal answer = false := by
  cases c with
  | lock => exact h.elim
  | _ => rfl

theorem isGrant_of_isRefusal {answer : c.Answer} (h : c.isRefusal answer = true) :
    c.isGrant answer = false := by
  cases c with
  | lock path =>
    rcases answer with fault | file
    · rfl
    · cases h
  | _ => rfl

end FileCommand

namespace Interleaving

variable {ι α : Type} [DecidableEq ι] {s : Interleaving ι α} {i : ι} {c : FileCommand}
  {next : c.Answer → FileProgram α}

/-- Those who had the lock, in the order in which they got it. -/
def holders (s : Interleaving ι α) : List ι :=
  (s.acts.filter fun a => a.command.isGrant a.answer).map Act.who

/-- The content that the last holder of a lock left, or that was there before
there was one. -/
def left (t : Tree) (path : Bytes) (acts : List (Act ι)) : Option Bytes :=
  acts.foldl (fun content a => if a.command.isRelease then a.after.contentAt path else content)
    (t.contentAt path)

omit [DecidableEq ι] in
theorem left_concat (t : Tree) (path : Bytes) (acts : List (Act ι)) (a : Act ι) :
    left t path (acts ++ [a]) =
      if a.command.isRelease then a.after.contentAt path else left t path acts :=
  List.foldl_append

theorem holders_step_of_grant (h : s.programs i = .call c next)
    (hgrant : c.isGrant (s.tree.perform c).1 = true) : (s.step i).holders = s.holders ++ [i] := by
  rw [holders, acts_step h, List.filter_append,
    List.filter_cons_of_pos (by exact hgrant), List.map_append]
  rfl

theorem holders_step (h : s.programs i = .call c next)
    (hgrant : c.isGrant (s.tree.perform c).1 = false) : (s.step i).holders = s.holders := by
  rw [holders, acts_step h, List.filter_append,
    List.filter_cons_of_neg (by exact Bool.not_eq_true _ ▸ hgrant), List.filter_nil, List.append_nil]
  rfl

theorem holders_subset_step (h : s.programs i = .call c next) : s.holders ⊆ (s.step i).holders := by
  cases hgrant : c.isGrant (s.tree.perform c).1 with
  | true =>
    rw [holders_step_of_grant h hgrant]
    exact List.subset_append_left ..
  | false =>
    rw [holders_step h hgrant]
    exact List.Subset.refl _

end Interleaving

namespace Annotate

open FileProgram (call done makeDirectories Uses)
open ScanTriage.Tree (IsSound IsPaved TakesLock Along Spares IsCleaned IsMaking Vouches)
open Interleaving (left)

/-! ## Runs that share a report -/

/-- Runs that write one report under one state directory. -/
structure SharedRuns (ι : Type) (report stateDir : Bytes) where
  options : ι → Options
  path : ι → Bytes
  writes : ∀ i, (options i).toOutput = false
  reportPath_eq : ∀ i, reportPath (options i) (path i) = report
  stateDirOf_eq : ∀ i, stateDirOf (options i) (path i) = stateDir

variable {ι : Type} {report dir : Bytes}

namespace SharedRuns

def program (r : SharedRuns ι report dir) (i : ι) : FileProgram Result :=
  Annotate.program (r.options i) (r.path i)

def start (r : SharedRuns ι report dir) (t : Tree) : Interleaving ι Result where
  tree := t
  programs := r.program

/-- What runs leave that are carried out one after the other. -/
def inTurn (r : SharedRuns ι report dir) (t : Tree) (order : List ι) : Tree :=
  order.foldl (fun t i => (t.run (r.program i)).2) t

theorem inTurn_concat (r : SharedRuns ι report dir) (t : Tree) (order : List ι) (i : ι) :
    r.inTurn t (order ++ [i]) = ((r.inTurn t order).run (r.program i)).2 := List.foldl_append

def entry (r : SharedRuns ι report dir) (engine : Engine) (i : ι) :
    Except FileFault Unit → FileProgram Result :=
  enter dir (inside (r.options i) engine report)

theorem isCleaned (r : SharedRuns ι report dir) (i : ι) : IsCleaned report :=
  r.reportPath_eq i ▸ isCleaned_reportPath (r.options i) (r.path i)

theorem program_cases (r : SharedRuns ι report dir) (i : ι) :
    (∃ fault, Harmless fault ∧ r.program i = done (.error fault, [])) ∨
      ∃ engine, r.program i = makeDirectories dir >>= r.entry engine i := by
  rw [program, program_eq]
  cases (r.options i).engine? with
  | none => exact .inl ⟨.plain _, fun _ => nofun, rfl⟩
  | some engine =>
    dsimp only
    split
    · exact .inl ⟨.cancelled, fun _ => nofun, rfl⟩
    · rw [if_neg (by simp [r.writes i]), r.stateDirOf_eq i, r.reportPath_eq i]
      exact .inr ⟨engine, rfl⟩

end SharedRuns

def Result.IsHarmless (result : Result) : Prop := ∀ fault, result.1 = .error fault → Harmless fault

/-! ## Runs without the lock -/

/-- A run without the lock is over, or it makes the state directory. It goes on
to the lock only when the directory is there. -/
inductive Waits (r : SharedRuns ι report dir) (t : Tree) (i : ι) : FileProgram Result → Prop where
  | ended {result : Result} (hharmless : result.IsHarmless) : Waits r t i (done result)
  | making {engine : Engine} {m : FileProgram (Except FileFault Unit)}
    (hprogram : r.program i = makeDirectories dir >>= r.entry engine i)
    (huses : m.Uses (IsMaking dir)) (hvouches : Vouches dir m)
    (hdone : m = done (.ok ()) → t.isDirectory dir = true) : Waits r t i (m >>= r.entry engine i)

variable {r : SharedRuns ι report dir} {t u : Tree} {i : ι} {p : FileProgram Result}

theorem Waits.mono (h : Waits r t i p) (hdir : t.isDirectory dir = true → u.isDirectory dir = true) :
    Waits r u i p := by
  cases h with
  | ended hharmless => exact .ended hharmless
  | making hprogram huses hvouches hdone =>
    exact .making hprogram huses hvouches fun hm => hdir (hdone hm)

theorem isHarmless_of_waits {result : Result} (h : Waits r t i (done result)) :
    result.IsHarmless := by
  generalize hp : done result = p at h
  cases h with
  | ended hharmless =>
    cases hp
    exact hharmless
  | @making engine m hprogram huses hvouches hdone =>
    cases m with
    | done made =>
      rcases made with fault | _
      · cases hp
        intro fault hfault
        cases hfault
        exact fun _ => nofun
      · cases hp
    | call c next => cases hp

theorem waits_program (r : SharedRuns ι report dir) (t : Tree) (i : ι) :
    Waits r t i (r.program i) := by
  obtain ⟨fault, hharmless, hprogram⟩ | ⟨engine, hprogram⟩ := r.program_cases i
  · rw [hprogram]
    refine .ended fun _ hfault => ?_
    cases hfault
    exact hharmless
  · rw [hprogram]
    refine .making hprogram (Tree.isMaking_makeDirectoriesWith _ (.refl dir))
      (Tree.vouches_makeDirectoriesWith _ dir) fun hm => ?_
    rw [makeDirectories, FileProgram.makeDirectoriesWith_succ] at hm
    cases hm

theorem Waits.cases (h : Waits r t i p) (ht : t.IsSound) :
    (∃ result, p = done result) ∨
      (∃ c next, p = call c next ∧ IsMaking dir c ∧
        Waits r (t.perform c).2 i (next (t.perform c).1)) ∨
      ∃ engine, r.program i = makeDirectories dir >>= r.entry engine i ∧
        t.isDirectory dir = true ∧ p = r.entry engine i (.ok ()) := by
  cases h with
  | ended => exact .inl ⟨_, rfl⟩
  | @making engine m hprogram huses hvouches hdone =>
    cases m with
    | done made =>
      rcases made with fault | _
      · exact .inl ⟨_, rfl⟩
      · exact .inr (.inr ⟨engine, hprogram, hdone rfl, rfl⟩)
    | call c next =>
      refine .inr (.inl ⟨c, fun answer => next answer >>= r.entry engine i, rfl, huses.1, ?_⟩)
      exact .making hprogram (huses.2 _) (hvouches _).2 fun hm =>
        Tree.isDirectory_of_shows ht ((hvouches _).1 hm)

/-! ## The run with the lock -/

/-- A run does not take a lock again, and giving one back is the last it does. -/
def Closes : FileProgram Result → Prop
  | .done _ => True
  | .call c next => c.IsQuiet ∧ ∀ answer,
    (∀ result, next answer = done result → c.isRelease = true) ∧ Closes (next answer)

theorem closes_leave {file : FileId} {p : FileProgram Result}
    (h : p.Uses FileCommand.IsQuiet) : Closes (p >>= leave file) := by
  change Closes (p.bind (leave file))
  induction p with
  | done result => exact ⟨trivial, fun _ => ⟨fun _ _ => rfl, trivial⟩⟩
  | call c next ih =>
    refine ⟨h.1, fun answer => ⟨fun result hdone => ?_, ih answer (h.2 answer)⟩⟩
    exact absurd hdone (Tree.bind_ne_done fun _ => nofun)

theorem isQuiet_replaceFile (path data : Bytes) :
    (replaceFile path data).Uses FileCommand.IsQuiet := by
  rw [replaceFile_eq]
  refine ⟨trivial, fun info => ⟨trivial, fun written => ?_⟩⟩
  rcases written with fault | temporary
  · trivial
  refine ⟨trivial, fun set => ?_⟩
  rcases set with fault | _
  · exact ⟨trivial, fun _ => trivial⟩
  refine ⟨trivial, fun renamed => ?_⟩
  rcases renamed with fault | _
  · exact ⟨trivial, fun _ => trivial⟩
  · trivial

theorem isQuiet_session (options : Options) (engine : Engine) (path : Bytes) :
    (session options engine path).Uses FileCommand.IsQuiet := by
  refine ⟨trivial, fun answer => ?_⟩
  rcases answer with fault | data
  · trivial
  dsimp only [proceed]
  rcases draft options engine path data with fault | ⟨report, total, out⟩
  · trivial
  dsimp only
  split
  · trivial
  refine (isQuiet_replaceFile path out).bind fun answer => ?_
  rcases answer with fault | _
  · trivial
  refine ⟨trivial, fun after => ?_⟩
  rcases after with fault | after
  · trivial
  dsimp only
  rcases verify data after with why | _ <;> trivial

/-- A tree in which a run holds the lock. -/
structure Guarded (t : Tree) (dir : Bytes) (u : Tree) : Prop where
  sound : u.IsSound
  working : u.working = t.working
  isDirectory : u.isDirectory dir = true
  locked : ∃ id, u.openFileAt (lockPath dir) = .ok id ∧ id ∈ u.locks

/-- What a run leaves that had the lock. -/
structure Released (t : Tree) (dir : Bytes) (result : Result) (u : Tree) : Prop where
  sound : u.IsSound
  working : u.working = t.working
  isDirectory : u.isDirectory dir = true
  harmless : result.IsHarmless

theorem isHarmless_of_sessionEnds {options : Options} {engine : Engine} {path : Bytes}
    {result : Result} (h : SessionEnds options engine path t result u) : result.IsHarmless := by
  intro fault hfault
  cases h with
  | failed hharmless =>
    cases hfault
    exact hharmless
  | shown => cases hfault
  | stored => cases hfault

section Guarded

variable {v : Tree} {id : FileId}

/-- The lock stays as long as nothing but the report changes. -/
theorem Guarded.of_spares (hworking : u.working = t.working) (hu : u.IsSound)
    (hdir : u.isDirectory dir = true) (hapart : t.goal (lockPath dir) ≠ t.goal report)
    (hopens : u.openFileAt (lockPath dir) = .ok id) (hlocked : id ∈ u.locks)
    (hspares : u.Spares (u.goal report) v) : Guarded t dir v where
  sound := hspares.sound
  working := hspares.keeps.working.trans hworking
  isDirectory := hspares.keeps.isDirectory hu hdir
  locked := by
    obtain ⟨place, data, mode, hresolve, hfile⟩ := Tree.openFileAt_eq_ok.mp hopens
    have hplace : place ≠ u.goal report := by
      rw [Tree.eq_goal_of_resolve hresolve, Tree.goal_of_working hworking,
        Tree.goal_of_working hworking]
      exact hapart
    refine ⟨id, Tree.openFileAt_eq_ok.mpr ⟨place, data, mode, ?_, ?_⟩, hspares.locks ▸ hlocked⟩
    · exact hspares.keeps.resolve hu.toIsProper hresolve
    · exact hspares.others place _ hplace hfile

/-- What a run does with the lock, and how it gives it back. -/
theorem along_inside (hclean : IsCleaned report) (hworking : t.working = u.working)
    (ht : t.IsSound) (hdir : t.isDirectory dir = true)
    (hapart : u.goal (lockPath dir) ≠ u.goal report) (hlock : t.TakesLock (lockPath dir) id v)
    (options : Options) (engine : Engine) :
    Along (Guarded u dir) (Released u dir) (inside options engine report id) v := by
  have hguarded : ∀ w, v.Spares (v.goal report) w → Guarded u dir w := fun w hspares =>
    Guarded.of_spares (hlock.keeps.working.trans hworking) hlock.sound
      (hlock.keeps.isDirectory ht hdir) hapart hlock.opens (by simp [hlock.locks]) hspares
  refine ((along_session hlock.sound hclean options engine).mono hguarded fun _ _ h => h).bind ?_
  intro result w hends
  have hw := hguarded w (hends.spares hlock.sound)
  have hkeeps : w.Keeps (w.unlock id) := Tree.keeps_locks w _
  exact ⟨hw, hw.sound.unlock id, hw.working, hkeeps.isDirectory hw.sound hw.isDirectory,
    isHarmless_of_sessionEnds hends⟩

end Guarded

/-! ## The content of the report -/

theorem contentAt_of_isPaved (hclean : IsCleaned report) (ht : t.IsSound) (hu : u.IsSound)
    (hpaved : t.IsPaved dir u) : u.contentAt report = t.contentAt report := by
  obtain ⟨ps, -, rfl⟩ := hpaved
  refine ht.contentAt_congr hu (t.pave_fields _ _).1 hclean ?_
  obtain hsame | ⟨hnone, hmade, -⟩ := t.find?_pave (t.startOf dir) ps (t.goal report)
  · rw [hsame]
  · rw [hnone, hmade]
    rfl

theorem contentAt_of_takesLock {path : Bytes} {id : FileId} (hclean : IsCleaned report)
    (ht : t.IsSound) (hapart : t.goal path ≠ t.goal report) (hlock : t.TakesLock path id u) :
    u.contentAt report = t.contentAt report := by
  refine ht.contentAt_congr hlock.sound hlock.keeps.working hclean ?_
  obtain hsame | ⟨-, hgoal, -⟩ := hlock.find? (t.goal report)
  · rw [hsame]
  · exact absurd hgoal.symm hapart

/-! ## What the record says -/

variable {s : Interleaving ι Result} {c : FileCommand}
  {next : c.Answer → FileProgram Result}

/-- What is true of the commands that were carried out. -/
structure Recorded (t : Tree) (report : Bytes) (s : Interleaving ι Result) : Prop where
  refused : ∀ a ∈ s.acts, a.command.isRefusal a.answer = true →
    a.who ∉ s.holders ∧ s.programs a.who = done (.error lockedFault, [])
  changed : ∀ a ∈ s.acts, a.who ∉ s.holders → a.after.contentAt report = a.before.contentAt report
  read : ∀ earlier a later, s.acts = earlier ++ a :: later → a.command = .read report →
    (∀ b ∈ earlier, b.who = a.who → b.command ≠ .read report) →
    a.before.contentAt report = left t report earlier

/-- What has to be seen of one turn. -/
theorem Recorded.step [DecidableEq ι] (h : Recorded t report s) (hcall : s.programs i = call c next)
    (hrefused : c.isRefusal (s.tree.perform c).1 = true →
      i ∉ s.holders ∧ next (s.tree.perform c).1 = done (.error lockedFault, []))
    (hchanged : i ∉ s.holders → (s.tree.perform c).2.contentAt report = s.tree.contentAt report)
    (hread : c = .read report → (∀ b ∈ s.acts, b.who = i → b.command ≠ .read report) →
      s.tree.contentAt report = left t report s.acts) : Recorded t report (s.step i) where
  refused a ha hbusy := by
    rw [Interleaving.acts_step hcall] at ha
    have hnew : ∀ j, j ∉ s.holders → (j = i → c.isGrant (s.tree.perform c).1 = false) →
        j ∉ (s.step i).holders := by
      intro j hj hgrant
      cases hc : c.isGrant (s.tree.perform c).1 with
      | false => rwa [Interleaving.holders_step hcall hc]
      | true =>
        rw [Interleaving.holders_step_of_grant hcall hc]
        rintro hmem
        rcases List.mem_append.mp hmem with hmem | hmem
        · exact hj hmem
        · exact absurd (hgrant (List.mem_singleton.mp hmem)) (by simp [hc])
    rcases List.mem_append.mp ha with ha | ha
    · obtain ⟨hnot, hdone⟩ := h.refused a ha hbusy
      refine ⟨hnew _ hnot ?_, Interleaving.programs_step_of_done hdone⟩
      rintro rfl
      exact absurd (hcall.symm.trans hdone) nofun
    · cases List.mem_singleton.mp ha
      obtain ⟨hnot, hdone⟩ := hrefused hbusy
      refine ⟨hnew _ hnot fun _ => ?_, (Interleaving.programs_step_self hcall).trans hdone⟩
      exact FileCommand.isGrant_of_isRefusal hbusy
  changed a ha hnot := by
    rw [Interleaving.acts_step hcall] at ha
    have hbefore : a.who ∉ s.holders := fun hmem =>
      hnot (Interleaving.holders_subset_step hcall hmem)
    rcases List.mem_append.mp ha with ha | ha
    · exact h.changed a ha hbefore
    · cases List.mem_singleton.mp ha
      exact hchanged hbefore
  read earlier a later hacts hcommand hfirst := by
    rw [Interleaving.acts_step hcall] at hacts
    rcases List.eq_nil_or_concat later with rfl | ⟨later, last, rfl⟩
    · obtain ⟨rfl, ha⟩ := List.append_inj' hacts rfl
      cases List.singleton_inj.mp ha
      exact hread hcommand hfirst
    · have hacts' : s.acts ++ [⟨i, c, s.tree⟩] = (earlier ++ a :: later) ++ [last] := by
        simpa using hacts
      exact h.read earlier a later (List.append_inj' hacts' rfl).1 hcommand hfirst

/-! ## One turn -/

/-- Who has the lock, and what that says of the tree. -/
inductive Phase (r : SharedRuns ι report dir) (t : Tree) (s : Interleaving ι Result) :
    Option ι → Prop where
  /-- Nobody has had the lock yet. -/
  | fresh (hholders : s.holders = []) (hpaved : t.IsPaved dir s.tree)
    (hcontent : s.tree.contentAt report = t.contentAt report) : Phase r t s none
  /-- Everyone who had the lock is done. -/
  | free (hholders : s.holders ≠ []) (htree : s.tree = r.inTurn t s.holders)
    (hdir : s.tree.isDirectory dir = true) : Phase r t s none
  /-- A run that has the lock goes on as it would alone. -/
  | held {i : ι} {earlier : List ι} (hholders : s.holders = earlier ++ [i])
    (hrun : s.tree.run (s.programs i) = (r.inTurn t earlier).run (r.program i))
    (halong : Along (Guarded t dir) (Released t dir) (s.programs i) s.tree)
    (hcloses : Closes (s.programs i)) (hbusy : ∀ result, s.programs i ≠ done result)
    (hread : (∃ next, s.programs i = call (.read report) next) ∧
        s.tree.contentAt report = left t report s.acts ∨
      ∃ a ∈ s.acts, a.who = i ∧ a.command = .read report) : Phase r t s (some i)

/-- A turn that leaves the tree as it is does not matter to who has the lock. -/
theorem Phase.keep {s' : Interleaving ι Result} {holder? : Option ι} (h : Phase r t s holder?)
    (htree : s'.tree = s.tree) (hholders : s'.holders = s.holders)
    (hprograms : ∀ i, holder? = some i → s'.programs i = s.programs i) (hacts : s.acts ⊆ s'.acts)
    (hleft : left t report s'.acts = left t report s.acts) : Phase r t s' holder? := by
  cases h with
  | fresh hholders' hpaved hcontent =>
    exact .fresh (hholders.trans hholders') (htree ▸ hpaved) (htree ▸ hcontent)
  | free hholders' htree' hdir =>
    refine .free (hholders ▸ hholders') ?_ (htree ▸ hdir)
    rw [htree, hholders, htree']
  | @held i earlier hholders' hrun halong hcloses hbusy hread =>
    have hi := hprograms i rfl
    refine .held (hholders.trans hholders') ?_ ?_ (hi ▸ hcloses) (hi ▸ hbusy) ?_
    · rw [htree, hi, hrun]
    · rw [htree, hi]
      exact halong
    · rw [htree, hi, hleft]
      exact hread.imp_right fun ⟨a, ha, hwho⟩ => ⟨a, hacts ha, hwho⟩

/-- As long as a run has the lock, the lock is taken. -/
theorem Phase.guarded (h : Phase r t s (some i)) : Guarded t dir s.tree := by
  cases h with
  | held _ _ halong _ hbusy _ =>
    cases hprogram : s.programs i with
    | done result => exact absurd hprogram (hbusy result)
    | call c next =>
      rw [hprogram] at halong
      exact halong.1

/-- What is true of runs at the same time, whoever has had a turn. -/
structure Invariant (r : SharedRuns ι report dir) (t : Tree) (s : Interleaving ι Result)
    (holder? : Option ι) : Prop where
  sound : s.tree.IsSound
  working : s.tree.working = t.working
  recorded : Recorded t report s
  phase : Phase r t s holder?
  content : holder? = none → s.tree.contentAt report = left t report s.acts
  waits : ∀ i, holder? ≠ some i → Waits r s.tree i (s.programs i)
  ended : ∀ i ∈ s.holders, holder? ≠ some i → (∃ result, s.programs i = done result) ∧
    ∃ a ∈ s.acts, a.who = i ∧ a.command = .read report

theorem Invariant.start (ht : t.IsSound) (r : SharedRuns ι report dir) :
    Invariant r t (r.start t) none where
  sound := ht
  working := rfl
  recorded := ⟨nofun, nofun, fun _ _ _ hacts => absurd hacts (by simp [SharedRuns.start])⟩
  phase := .fresh rfl ⟨[], List.nil_prefix, rfl⟩ rfl
  content _ := rfl
  waits i _ := waits_program r t i
  ended := nofun

section Step

variable {holder? : Option ι}

/-- A run without the lock has not had it before. -/
theorem Invariant.not_mem_holders (h : Invariant r t s holder?) (hi : holder? ≠ some i)
    (hcall : s.programs i = call c next) : i ∉ s.holders := by
  intro hmem
  obtain ⟨⟨result, hdone⟩, -⟩ := h.ended i hmem hi
  exact absurd (hcall.symm.trans hdone) nofun

/-- When nobody has the lock, a run alone would come to the same tree. -/
theorem Invariant.run_program (h : Invariant r t s none) (ht : t.IsSound)
    (hdir : s.tree.isDirectory dir = true) {engine : Engine}
    (hprogram : r.program i = makeDirectories dir >>= r.entry engine i) :
    (r.inTurn t s.holders).run (r.program i) = s.tree.run (r.entry engine i (.ok ())) := by
  have hmade : (r.inTurn t s.holders).run (makeDirectories dir) = (.ok (), s.tree) := by
    cases h.phase with
    | fresh hholders hpaved _ =>
      have htree := hpaved.eq_pave hdir
      rw [hholders, htree]
      refine Tree.run_makeDirectoriesWith_eq_pave ht (Nat.lt_succ_self _) ?_
      rw [← htree]
      exact hdir
    | free _ htree _ =>
      rw [← htree]
      exact Tree.run_makeDirectories_of_isDirectory hdir
  rw [hprogram, Tree.run_bind_of_run hmade]

variable [DecidableEq ι]

/-- A turn without the lock, and without getting it. -/
theorem Invariant.pass (h : Invariant r t s holder?) (hi : holder? ≠ some i)
    (hcall : s.programs i = call c next) (hgrant : c.isGrant (s.tree.perform c).1 = false)
    (hrelease : c.isRelease = false) (hread : c ≠ .read report)
    (hrefusal : c.isRefusal (s.tree.perform c).1 = true →
      next (s.tree.perform c).1 = done (.error lockedFault, []))
    (hnext : Waits r (s.tree.perform c).2 i (next (s.tree.perform c).1))
    (hpaved : s.tree.IsPaved dir (s.tree.perform c).2) (hsound : (s.tree.perform c).2.IsSound)
    (hphase : Phase r t (s.step i) holder?) : Invariant r t (s.step i) holder? := by
  have hcontent := contentAt_of_isPaved (r.isCleaned i) h.sound hsound hpaved
  have hleft : left t report (s.step i).acts = left t report s.acts := by
    rw [Interleaving.acts_step hcall, Interleaving.left_concat, hrelease]
    rfl
  have htree := Interleaving.tree_step hcall
  have hholders := Interleaving.holders_step hcall hgrant
  refine ⟨htree ▸ hsound, ?_, ?_, hphase, fun hnone => ?_, fun j hj => ?_, fun j hmem hj => ?_⟩
  · obtain ⟨ps, -, hps⟩ := hpaved
    rw [htree, hps, (s.tree.pave_fields _ _).1, h.working]
  · refine h.recorded.step hcall (fun hbusy => ⟨h.not_mem_holders hi hcall, hrefusal hbusy⟩)
      (fun _ => hcontent) fun hc => absurd hc hread
  · rw [htree, hleft, hcontent, h.content hnone]
  · rw [htree]
    by_cases hji : j = i
    · rw [hji, Interleaving.programs_step_self hcall]
      exact hnext
    · rw [Interleaving.programs_step_of_ne hji]
      exact (h.waits j hj).mono ((Prepared.of_isPaved hsound hpaved).keeps.isDirectory h.sound)
  · rw [hholders] at hmem
    obtain ⟨⟨result, hdone⟩, a, ha, hwho⟩ := h.ended j hmem hj
    refine ⟨⟨result, Interleaving.programs_step_of_done hdone⟩, a, ?_, hwho⟩
    rw [Interleaving.acts_step hcall]
    exact List.mem_append_left _ ha

/-- A turn without the lock that leaves the tree as it is. -/
theorem Invariant.pass_of_same (h : Invariant r t s holder?) (hi : holder? ≠ some i)
    (hcall : s.programs i = call c next) (hgrant : c.isGrant (s.tree.perform c).1 = false)
    (hrelease : c.isRelease = false) (hread : c ≠ .read report)
    (hrefusal : c.isRefusal (s.tree.perform c).1 = true →
      next (s.tree.perform c).1 = done (.error lockedFault, []))
    (hnext : Waits r s.tree i (next (s.tree.perform c).1))
    (hsame : (s.tree.perform c).2 = s.tree) : Invariant r t (s.step i) holder? := by
  refine h.pass hi hcall hgrant hrelease hread hrefusal (hsame.symm ▸ hnext) ?_
    (hsame.symm ▸ h.sound) ?_
  · exact ⟨[], List.nil_prefix, hsame⟩
  refine h.phase.keep ?_ (Interleaving.holders_step hcall hgrant) (fun j hj => ?_) ?_ ?_
  · rw [Interleaving.tree_step hcall, hsame]
  · refine Interleaving.programs_step_of_ne ?_
    rintro rfl
    exact hi hj
  · rw [Interleaving.acts_step hcall]
    exact List.subset_append_left ..
  · rw [Interleaving.acts_step hcall, Interleaving.left_concat, hrelease]
    rfl

theorem isQuiet_of_isMaking (h : IsMaking dir c) :
    c.IsQuiet ∧ c.isRelease = false ∧ ∀ path, c ≠ .read path := by
  cases c with
  | stat path => exact ⟨trivial, rfl, fun _ => nofun⟩
  | makeDirectory path => exact ⟨trivial, rfl, fun _ => nofun⟩
  | _ => exact h.elim

/-- A turn of a run that makes the state directory. -/
theorem Invariant.prepare (h : Invariant r t s holder?) (hi : holder? ≠ some i)
    (hcall : s.programs i = call c next) (hmaking : IsMaking dir c)
    (hnext : Waits r (s.tree.perform c).2 i (next (s.tree.perform c).1)) :
    Invariant r t (s.step i) holder? := by
  obtain ⟨hquiet, hrelease, hread⟩ := isQuiet_of_isMaking hmaking
  have hgrant := hquiet.isGrant (s.tree.perform c).1
  have hrefusal : c.isRefusal (s.tree.perform c).1 = true →
      next (s.tree.perform c).1 = done (.error lockedFault, []) := by
    simp [hquiet.isRefusal]
  by_cases hdir : s.tree.isDirectory dir = true
  · have hsame := Tree.perform_of_isMaking_of_isDirectory hdir hmaking
    rw [hsame] at hnext
    exact h.pass_of_same hi hcall hgrant hrelease (hread _) hrefusal hnext hsame
  have hsound := h.sound.perform_of_isMaking hmaking
  have hpaved : s.tree.IsPaved dir (s.tree.perform c).2 :=
    IsPaved.perform ⟨[], List.nil_prefix, rfl⟩ hmaking
  refine h.pass hi hcall hgrant hrelease (hread _) hrefusal hnext hpaved hsound ?_
  -- The directory is missing, so nobody has had the lock.
  cases hphase : h.phase with
  | fresh hholders hpaved' hcontent =>
    refine .fresh ((Interleaving.holders_step hcall hgrant).trans hholders) ?_ ?_
    · rw [Interleaving.tree_step hcall]
      exact hpaved'.perform hmaking
    · rw [Interleaving.tree_step hcall, ← hcontent]
      exact contentAt_of_isPaved (r.isCleaned i) h.sound hsound hpaved
  | free _ _ hdir' => exact absurd hdir' hdir
  | held => exact absurd h.phase.guarded.isDirectory hdir

/-- A turn in which a run gets the lock. -/
theorem Invariant.take_lock (h : Invariant r t s none) (ht : t.IsSound)
    (hapart : t.goal (lockPath dir) ≠ t.goal report) {engine : Engine}
    (hprogram : r.program i = makeDirectories dir >>= r.entry engine i)
    (hdir : s.tree.isDirectory dir = true)
    (hcall : s.programs i =
      call (.lock (lockPath dir)) (proceedWith dir (inside (r.options i) engine report)))
    {id : FileId} (hlock : s.tree.TakesLock (lockPath dir) id u)
    (hperform : s.tree.perform (.lock (lockPath dir)) = (.ok id, u)) :
    Invariant r t (s.step i) (some i) := by
  have hclean := r.isCleaned i
  have htree : (s.step i).tree = u := by rw [Interleaving.tree_step hcall, hperform]
  have hself : (s.step i).programs i = inside (r.options i) engine report id := by
    rw [Interleaving.programs_step_self hcall, hperform]
    rfl
  have hholders : (s.step i).holders = s.holders ++ [i] :=
    Interleaving.holders_step_of_grant hcall (by rw [hperform]; rfl)
  have hapart' : s.tree.goal (lockPath dir) ≠ s.tree.goal report := by
    rw [Tree.goal_of_working h.working, Tree.goal_of_working h.working]
    exact hapart
  have hcontent := contentAt_of_takesLock hclean h.sound hapart' hlock
  have hleft : left t report (s.step i).acts = left t report s.acts := by
    rw [Interleaving.acts_step hcall, Interleaving.left_concat]
    rfl
  refine ⟨?_, ?_, ?_, ?_, nofun, fun j hj => ?_, fun j hmem hj => ?_⟩
  · rw [htree]
    exact hlock.sound
  · rw [htree, hlock.keeps.working, h.working]
  · refine h.recorded.step hcall ?_ (fun _ => ?_) nofun <;> rw [hperform]
    · exact nofun
    · exact hcontent
  · refine .held hholders ?_ ?_ ?_ (fun result => ?_) (.inl ⟨⟨_, hself⟩, ?_⟩)
    · have hrun : s.tree.run (r.entry engine i (.ok ())) =
          (s.tree.perform (.lock (lockPath dir))).2.run
            (proceedWith dir (inside (r.options i) engine report)
              (s.tree.perform (.lock (lockPath dir))).1) := rfl
      rw [htree, hself, h.run_program ht hdir hprogram, hrun, hperform]
      rfl
    · rw [htree, hself]
      exact along_inside hclean h.working h.sound hdir hapart hlock _ _
    · rw [hself]
      exact closes_leave (isQuiet_session _ _ _)
    · rw [hself]
      exact nofun
    · rw [htree, hleft, hcontent, h.content rfl]
  · have hji : j ≠ i := fun hji => hj (congrArg some hji.symm)
    rw [htree, Interleaving.programs_step_of_ne hji]
    exact (h.waits j nofun).mono (hlock.keeps.isDirectory h.sound)
  · have hji : j ≠ i := fun hji => hj (congrArg some hji.symm)
    rw [hholders] at hmem
    have hmem' : j ∈ s.holders := by simpa [hji] using hmem
    obtain ⟨⟨result, hdone⟩, a, ha, hwho⟩ := h.ended j hmem' nofun
    refine ⟨⟨result, Interleaving.programs_step_of_done hdone⟩, a, ?_, hwho⟩
    rw [Interleaving.acts_step hcall]
    exact List.mem_append_left _ ha

/-- A turn of a run that tries to get the lock. -/
theorem Invariant.try_lock (h : Invariant r t s holder?) (ht : t.IsSound)
    (hapart : t.goal (lockPath dir) ≠ t.goal report) (hi : holder? ≠ some i) {engine : Engine}
    (hprogram : r.program i = makeDirectories dir >>= r.entry engine i)
    (hdir : s.tree.isDirectory dir = true) (hentry : s.programs i = r.entry engine i (.ok ())) :
    ∃ holder?, Invariant r t (s.step i) holder? := by
  have hcall : s.programs i =
      call (.lock (lockPath dir)) (proceedWith dir (inside (r.options i) engine report)) := hentry
  obtain ⟨fault, hlock⟩ | ⟨id, -, -, hlock⟩ | ⟨id, u, hlock, htaken⟩ :=
    h.sound.lockAt_cases (lockPath dir)
  · have hperform : s.tree.perform (.lock (lockPath dir)) = (.error (.file fault), s.tree) := hlock
    refine ⟨holder?, h.pass_of_same hi hcall ?_ rfl nofun ?_ ?_ ?_⟩ <;> rw [hperform]
    · rfl
    · exact nofun
    · refine .ended fun fault hfault => ?_
      cases hfault
      exact fun _ => nofun
  · have hperform : s.tree.perform (.lock (lockPath dir)) = (.error .busy, s.tree) := hlock
    refine ⟨holder?, h.pass_of_same hi hcall ?_ rfl nofun ?_ ?_ ?_⟩ <;> rw [hperform]
    · rfl
    · exact fun _ => rfl
    · refine .ended fun fault hfault => ?_
      cases hfault
      exact fun _ => nofun
  · have hperform : s.tree.perform (.lock (lockPath dir)) = (.ok id, u) := htaken
    have hnone : holder? = none := by
      cases holder? with
      | none => rfl
      | some j =>
        obtain ⟨id', hopen, hmem⟩ := h.phase.guarded.locked
        rw [Tree.lockAt_of_locked hopen hmem] at htaken
        cases htaken
    subst hnone
    exact ⟨some i, h.take_lock ht hapart hprogram hdir hcall hlock hperform⟩

/-- A turn of the run that has the lock. -/
theorem Invariant.work (h : Invariant r t s (some i)) (hcall : s.programs i = call c next) :
    ∃ holder?, Invariant r t (s.step i) holder? := by
  cases h.phase with
  | @held _ earlier hholders hrun halong hcloses hbusy hread =>
  rw [hcall] at hrun halong hcloses
  obtain ⟨hguarded, halong⟩ := halong
  obtain ⟨hquiet, hcloses⟩ := hcloses
  obtain ⟨hlast, hcloses⟩ := hcloses (s.tree.perform c).1
  have htree := Interleaving.tree_step hcall
  have hself := Interleaving.programs_step_self hcall
  have hacts := Interleaving.acts_step hcall
  have hsame : (s.step i).holders = s.holders :=
    Interleaving.holders_step hcall (hquiet.isGrant _)
  have hmem : i ∈ s.holders := by simp [hholders]
  have hread' : ∃ a ∈ (s.step i).acts, a.who = i ∧ a.command = .read report := by
    rw [hacts]
    rcases hread with ⟨⟨next', hnext⟩, -⟩ | ⟨a, ha, hwho⟩
    · cases hcall.symm.trans hnext
      exact ⟨_, List.mem_append_right _ (List.mem_singleton.mpr rfl), rfl, rfl⟩
    · exact ⟨a, List.mem_append_left _ ha, hwho⟩
  have hrecorded : Recorded t report (s.step i) := by
    refine h.recorded.step hcall (fun hrefusal => ?_) (fun hnot => absurd hmem hnot) fun _ hnone => ?_
    · simp [hquiet.isRefusal] at hrefusal
    · rcases hread with ⟨-, hcontent⟩ | ⟨a, ha, hwho, hcommand⟩
      · exact hcontent
      · exact absurd hcommand (hnone a ha hwho)
  have hwaits : (s.tree.perform c).2.isDirectory dir = true →
      ∀ j, j ≠ i → Waits r (s.step i).tree j ((s.step i).programs j) := by
    intro hdir j hj
    rw [htree, Interleaving.programs_step_of_ne hj]
    exact (h.waits j fun hsome => hj (Option.some.inj hsome).symm).mono fun _ => hdir
  have hover : ∀ j ∈ (s.step i).holders, j ≠ i → (∃ result, (s.step i).programs j = done result) ∧
      ∃ a ∈ (s.step i).acts, a.who = j ∧ a.command = .read report := by
    intro j hj hne
    obtain ⟨⟨result, hdone⟩, a, ha, hwho⟩ :=
      h.ended j (hsame ▸ hj) fun hsome => hne (Option.some.inj hsome).symm
    refine ⟨⟨result, Interleaving.programs_step_of_done hdone⟩, a, ?_, hwho⟩
    rw [hacts]
    exact List.mem_append_left _ ha
  cases hnext : next (s.tree.perform c).1 with
  | call c' next' =>
    -- The lock is kept.
    rw [hnext] at halong hself
    refine ⟨some i, ?_⟩
    have hguarded' : Guarded t dir (s.tree.perform c).2 := halong.1
    refine ⟨htree ▸ hguarded'.sound, htree ▸ hguarded'.working, hrecorded, ?_, nofun,
      fun j hj => ?_, fun j hj hne => ?_⟩
    · refine .held (hsame.trans hholders) ?_ ?_ ?_ (fun result => ?_) (.inr hread')
      · rw [htree, hself, ← hnext, ← hrun, Tree.run_call]
      · rw [htree, hself]
        exact halong
      · rw [hself, ← hnext]
        exact hcloses
      · rw [hself]
        exact nofun
    · exact hwaits hguarded'.isDirectory j fun hji => hj (congrArg some hji.symm)
    · exact hover j hj fun hji => hne (congrArg some hji.symm)
  | done result =>
    -- The lock was given back, so this is how the run ends when it is alone.
    have hrelease := hlast result hnext
    rw [hnext] at halong hself
    refine ⟨none, ?_⟩
    have hreleased : Released t dir result (s.tree.perform c).2 := halong
    refine ⟨htree ▸ hreleased.sound, htree ▸ hreleased.working, hrecorded, ?_, fun _ => ?_,
      fun j _ => ?_, fun j hj _ => ?_⟩
    · refine .free (by simp [hsame, hholders]) ?_ (htree ▸ hreleased.isDirectory)
      rw [htree, hsame, hholders, SharedRuns.inTurn_concat, ← hrun, Tree.run_call, hnext]
      rfl
    · rw [htree, hacts, Interleaving.left_concat]
      simp only [hrelease, if_true]
      rfl
    · by_cases hji : j = i
      · rw [hji, hself]
        exact .ended hreleased.harmless
      · exact hwaits hreleased.isDirectory j hji
    · by_cases hji : j = i
      · rw [hji]
        exact ⟨⟨result, hself⟩, hread'⟩
      · exact hover j hj hji

theorem Invariant.step (h : Invariant r t s holder?) (ht : t.IsSound)
    (hapart : t.goal (lockPath dir) ≠ t.goal report) (hcall : s.programs i = call c next) :
    ∃ holder?, Invariant r t (s.step i) holder? := by
  by_cases hi : holder? = some i
  · subst hi
    exact h.work hcall
  obtain ⟨result, hdone⟩ | ⟨c', next', hmake, hmaking, hnext⟩ | ⟨engine, hprogram, hdir, hentry⟩ :=
    (h.waits i hi).cases h.sound
  · exact absurd (hcall.symm.trans hdone) nofun
  · exact ⟨holder?, h.prepare hi hmake hmaking hnext⟩
  · exact h.try_lock ht hapart hi hprogram hdir hentry

end Step

/-! ## All turns -/

/-- Runs at the same time are as good as runs one after the other. -/
structure Serialized (r : SharedRuns ι report dir) (t : Tree) (s : Interleaving ι Result) :
    Prop where
  /-- A run that finds the lock taken never gets it, and ends by saying so. -/
  refused : ∀ a ∈ s.acts, a.command.isRefusal a.answer = true →
    a.who ∉ s.holders ∧
      ∃ fault events, s.programs a.who = done (.error fault, events) ∧ fault.root = .locked
  /-- A run that did not get the lock does nothing to the report. -/
  spared : ∀ a ∈ s.acts, a.who ∉ s.holders →
    a.after.contentAt report = a.before.contentAt report
  /-- What a run reads first is what the last run with the lock left. -/
  read : ∀ earlier a later, s.acts = earlier ++ a :: later → a.command = .read report →
    (∀ b ∈ earlier, b.who = a.who → b.command ≠ .read report) →
    a.before.contentAt report = left t report earlier
  /-- A run that got the lock has read the report when it is done. -/
  hasRead : ∀ i ∈ s.holders, ∀ result, s.programs i = done result →
    ∃ a ∈ s.acts, a.who = i ∧ a.command = .read report
  /-- No run finds fault with what it wrote. -/
  verified : ∀ i fault events, s.programs i = done (.error fault, events) →
    ∀ detail, fault.root ≠ .integrity detail
  /-- The report is what the runs with the lock make of it in their order. -/
  final : (∀ i ∈ s.holders, ∃ result, s.programs i = done result) →
    s.tree.contentAt report = (r.inTurn t s.holders).contentAt report

theorem Invariant.serialized {holder? : Option ι} (h : Invariant r t s holder?) :
    Serialized r t s where
  refused a ha hbusy := by
    obtain ⟨hnot, hdone⟩ := h.recorded.refused a ha hbusy
    exact ⟨hnot, lockedFault, [], hdone, rfl⟩
  spared := h.recorded.changed
  read := h.recorded.read
  hasRead i hi result hdone := by
    refine (h.ended i hi fun hholder => ?_).2
    subst hholder
    cases h.phase with
    | held _ _ _ _ hbusy _ => exact hbusy result hdone
  verified i fault events hdone := by
    by_cases hholder : holder? = some i
    · subst hholder
      cases h.phase with
      | held _ _ _ _ hbusy _ => exact absurd hdone (hbusy _)
    · have hwaits := h.waits i hholder
      rw [hdone] at hwaits
      exact isHarmless_of_waits hwaits fault rfl
  final hover := by
    cases h.phase with
    | fresh hholders _ hcontent =>
      rw [hholders]
      exact hcontent
    | free _ htree _ => rw [← htree]
    | @held i _ hholders _ _ _ hbusy _ =>
      obtain ⟨result, hdone⟩ := hover i (by simp [hholders])
      exact absurd hdone (hbusy result)

/-- Runs that annotate one report under one state directory, at the same time
and in any order of their commands, leave what they leave one after the other,
in the order in which they get the lock. The report must not be the lock file,
which would be replaced under its own lock. -/
theorem run_serialized [DecidableEq ι] (r : SharedRuns ι report dir) (ht : t.IsSound)
    (hapart : t.goal (lockPath dir) ≠ t.goal report) (schedule : List ι) :
    Serialized r t ((r.start t).run schedule) := by
  have hall : ∃ holder?, Invariant r t ((r.start t).run schedule) holder? := by
    refine Interleaving.run_invariant (P := fun s => ∃ holder?, Invariant r t s holder?)
      ⟨none, .start ht r⟩ ?_ schedule
    rintro s i c next ⟨holder?, h⟩ hcall
    exact h.step ht hapart hcall
  obtain ⟨holder?, h⟩ := hall
  exact h.serialized

def threeRuns : SharedRuns (Fin 3) "/r.json" "/.wpcc" where
  options _ := deskOptions false
  path _ := "r.json"
  writes _ := rfl
  reportPath_eq _ := rfl
  stateDirOf_eq _ := rfl

/-- The second run tries while the first has the lock, the third comes later. -/
def busySchedule : List (Fin 3) :=
  [0, 1, 0, 1, 0, 1, 0, 1] ++ List.replicate 6 0 ++ List.replicate 9 2

theorem run_serialized_busy :
    ((threeRuns.start desk).run busySchedule).holders = [0, 2] ∧
      Serialized threeRuns desk ((threeRuns.start desk).run busySchedule) := by
  refine ⟨by decide +kernel, run_serialized threeRuns ?_ (by decide) busySchedule⟩
  exact Tree.isSound_of_root (by decide) rfl (by decide) (by decide) (by decide)

end Annotate

end ScanTriage
