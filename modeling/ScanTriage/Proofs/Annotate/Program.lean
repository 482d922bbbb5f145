import ScanTriage.Annotate.Annotate
import ScanTriage.Proofs.Annotate.Verified
import ScanTriage.Proofs.FileSystem.Making
import ScanTriage.Proofs.Triage.Consistency

/-!
# The steps of a run

A run that annotates a report, written out as its commands: the computations
between them are collected in `draft`, which says what a report text is
replaced by and what is shown, or why there is nothing to write.
-/

namespace ScanTriage

namespace Annotate

open FileProgram (call done)

abbrev Result := Except Fault Outcome × List Event

def program (options : Options) (path : Bytes) : FileProgram Result :=
  (annotate options path).run.run []

/-- The triage report of a report text and the number of its findings, with the
events that are shown. -/
def triaged (options : Options) (engine : Engine) (path data : Bytes) :
    Except Fault (Report × Int64) × List Event :=
  let findings? := Finding.listOfReport? data
  let warned := if findings?.isNone then [Event.log (noFindings path)] else []
  let shown (events : List Event) := if options.showsEngine then warned ++ events else warned
  if Json.isValid data then
    match engine.run findings? with
    | .error stopped => (.error .cancelled, shown stopped.events)
    | .ok (report, events) => (.ok (report, Int64.ofNat (findings?.getD []).length), shown events)
  else (.error (.user "Report is not valid JSON." (.plain (path ++ ": invalid JSON"))), [])

/-- What a report text is replaced by. -/
def draft (options : Options) (engine : Engine) (path data : Bytes) :
    Except Fault (Report × Int64 × Bytes) :=
  match (triaged options engine path data).1 with
  | .error fault => .error fault
  | .ok (report, total) =>
    match inject data report with
    | .error why => .error (.user "Could not build annotated report." (injectFault why))
    | .ok out => .ok (report, total, out)

def recheck (path data : Bytes) (report : Report) (total : Int64) (events : List Event) :
    FileProgram Result :=
  call (.read path) fun
    | .error fault => done (.error (.user "Could not re-read annotated report." fault.toFault), events)
    | .ok after =>
      match verify data after with
      | .error why =>
        done (.error (.user "Annotated report failed verification." (.integrity why.message)), events)
      | .ok _ => done (.ok ⟨report, total, path, none⟩, events ++ [.log (written path total report)])

def store (path data : Bytes) (report : Report) (total : Int64) (out : Bytes)
    (events : List Event) : FileProgram Result :=
  replaceFile path out >>= fun
    | .error fault => done (.error (.user "Could not write annotated report." fault.toFault), events)
    | .ok _ => recheck path data report total events

def proceed (options : Options) (engine : Engine) (path data : Bytes) : FileProgram Result :=
  let events := (triaged options engine path data).2
  match draft options engine path data with
  | .error fault => done (.error fault, events)
  | .ok (report, total, out) =>
    if options.toOutput then done (.ok ⟨report, total, path, some out⟩, events)
    else store path data report total out events

def session (options : Options) (engine : Engine) (path : Bytes) : FileProgram Result :=
  call (.read path) fun
    | .error fault => done (.error (.user "Could not read report file." fault.toFault), [])
    | .ok data => proceed options engine path data

section Tasks

variable {σ α β : Type}

theorem Task.run_bind (x : Task σ α) (f : α → Task σ β) (s : σ) :
    (x >>= f : Task σ β).run.run s = (x.run.run s).bind fun
      | (.ok a, s') => (f a).run.run s'
      | (.error fault, s') => done (.error fault, s') := by
  change (x.run.run s).bind _ = _
  refine congrArg (FileProgram.bind _) (funext fun r => ?_)
  rcases r with ⟨_ | _, _⟩ <;> rfl

theorem Task.run_bind_ok {x : Task σ α} {a : α} {s s' : σ} (h : x.run.run s = done (.ok a, s'))
    (f : α → Task σ β) : (x >>= f : Task σ β).run.run s = (f a).run.run s' := by
  rw [Task.run_bind, h]
  rfl

theorem Task.run_lift_bind (p : FileProgram α) (f : α → Task σ β) (s : σ) :
    (Task.lift p >>= f : Task σ β).run.run s = p.bind fun a => (f a).run.run s := by
  have hlift : (Task.lift p : Task σ α).run.run s = p.bind fun a => done (.ok a, s) :=
    FileProgram.bind_assoc p _ _
  rw [Task.run_bind, hlift, FileProgram.bind_assoc]
  rfl

/-- A program whose refusal is told the user. -/
theorem Task.run_orTell_bind (message : Bytes) (p : FileProgram (Except FileFault α))
    (f : α → Task σ β) (s : σ) :
    (Task.orTell message p >>= f : Task σ β).run.run s = p.bind fun
      | .ok a => (f a).run.run s
      | .error fault => done (.error (.user message fault.toFault), s) := by
  rw [Task.run_bind, Task.orTell, Task.run_lift_bind, FileProgram.bind_assoc]
  refine congrArg (FileProgram.bind p) (funext fun r => ?_)
  rcases r with _ | _ <;> rfl

theorem Task.run_emit (events s : List Event) :
    (Task.emit collect events).run.run s = done (.ok (), s ++ events) := by
  induction events generalizing s with
  | nil => simp [Task.emit]; rfl
  | cons event events ih =>
    have hstep : (Task.emit collect (event :: events)).run.run s =
        (Task.emit collect events).run.run (s ++ [event]) := rfl
    rw [hstep, ih]
    simp

end Tasks

theorem run_triage (options : Options) (engine : Engine) (path data : Bytes) :
    (triage collect options engine path data).run.run [] =
      done (triaged options engine path data) := by
  have hshow : ∀ {α : Type} (events s : List Event) (k : Task (List Event) α),
      (do if options.showsEngine then Task.emit collect events
          k : Task (List Event) α).run.run s =
        k.run.run (if options.showsEngine then s ++ events else s) := by
    intro α events s k
    split
    · exact Task.run_bind_ok (Task.run_emit events s) _
    · rfl
  unfold triage triaged
  by_cases hvalid : Json.isValid data = true
  · have hrest : ∀ s : List Event, (match engine.run (Finding.listOfReport? data) with
        | .error stopped => do
          if options.showsEngine then Task.emit collect stopped.events
          throw .cancelled
        | .ok (report, events) => do
          if options.showsEngine then Task.emit collect events
          pure (report, Int64.ofNat ((Finding.listOfReport? data).getD []).length) :
          Task (List Event) (Report × Int64)).run.run s =
        done (match engine.run (Finding.listOfReport? data) with
          | .error stopped =>
            (.error .cancelled, if options.showsEngine then s ++ stopped.events else s)
          | .ok (report, events) =>
            (.ok (report, Int64.ofNat ((Finding.listOfReport? data).getD []).length),
              if options.showsEngine then s ++ events else s)) := by
      intro s
      rcases engine.run (Finding.listOfReport? data) with stopped | ⟨report, events⟩
      · exact hshow ..
      · exact hshow ..
    simp only [hvalid, Bool.not_true, Bool.false_eq_true, if_false, if_true]
    by_cases hnone : (Finding.listOfReport? data).isNone = true
    · simp only [hnone, if_true]
      rw [Task.run_bind_ok (Task.run_emit _ _)]
      exact hrest _
    · simp only [hnone]
      exact hrest _
  · simp only [hvalid]
    rfl

theorem run_work (options : Options) (engine : Engine) (path : Bytes) :
    (work collect options engine path).run.run [] = session options engine path := by
  refine congrArg (call _) (funext fun answer => ?_)
  rcases answer with fault | data
  · rfl
  change (triage collect options engine path data >>= _ : Task (List Event) Outcome).run.run [] =
    proceed options engine path data
  rw [Task.run_bind, run_triage]
  unfold proceed draft
  rcases triaged options engine path data with ⟨fault | ⟨report, total⟩, events⟩
  · rfl
  dsimp only [FileProgram.bind]
  rcases inject data report with why | out
  · rfl
  by_cases hout : options.toOutput = true
  · simp only [hout, if_true]
    rfl
  · simp only [hout]
    refine (Task.run_orTell_bind _ _ _ _).trans ?_
    refine congrArg (FileProgram.bind _) (funext fun r => ?_)
    rcases r with fault | _
    · rfl
    refine (Task.run_orTell_bind _ _ _ _).trans ?_
    refine congrArg (call _) (funext fun r => ?_)
    rcases r with fault | after
    · rfl
    change (match verify data after with
      | .error why => _
      | .ok _ => _ : Task (List Event) Outcome).run.run events =
        (match verify data after with
        | .error why => _
        | .ok _ => _ )
    rcases verify data after with why | _ <;> rfl

/-- What is written passes the verification. -/
theorem verify_draft {options : Options} {engine : Engine} {path data out : Bytes} {report : Report}
    {total : Int64} (h : draft options engine path data = .ok (report, total, out)) :
    verify data out = .ok () := by
  have hparts : Json.isValid data = true ∧ inject data report = .ok out ∧
      ∃ findings? events, engine.run findings? = .ok (report, events) := by
    unfold draft triaged at h
    by_cases hvalid : Json.isValid data = true
    · simp only [hvalid, if_true] at h
      rcases hrun : engine.run (Finding.listOfReport? data) with stopped | ⟨report', events⟩ <;>
        simp only [hrun] at h
      · cases h
      cases hinject : inject data report' with
      | error why =>
        rw [hinject] at h
        cases h
      | ok out' =>
        rw [hinject] at h
        cases h
        exact ⟨hvalid, hinject, _, events, hrun⟩
    · simp only [hvalid] at h
      cases h
  obtain ⟨hvalid, hinject, findings?, events, hrun⟩ := hparts
  obtain ⟨seen, rest, -, hreport⟩ :=
    Engine.runWith_report_after (fun _ places => List.Perm.refl places) hrun
  have htallied : report.IsTallied := hreport ▸ Engine.report_after_isTallied
  have hsound : ∀ record ∈ report.records, record.IsSound := by
    rw [hreport, Engine.records_report_after]
    exact fun record => recordsOf_isSound
  exact verify_eq_ok_iff.mpr (intact_inject htallied.performed htallied.reviewed
    (htallied.summary_sum hsound) hvalid hinject)

/-! ## Under the lock -/

def reportPath (options : Options) (path : Bytes) : Bytes := Path.absolute options.working path

def stateDirOf (options : Options) (path : Bytes) : Bytes :=
  if options.stateDir.isEmpty then defaultStateDir (reportPath options path) else options.stateDir

def lockPath (stateDir : Bytes) : Bytes := Path.join [stateDir, lockName]

def lockedFault : Fault := .user "Another wpcc-triage run is annotating this report." .locked

def unlockableFault (cause : Fault) : Fault := .user "Could not lock report for writing." cause

def proceedWith (stateDir : Bytes) (inside : FileId → FileProgram Result) :
    Except LockFault FileId → FileProgram Result
  | .ok file => inside file
  | .error .busy => done (.error lockedFault, [])
  | .error (.file fault) =>
    done (.error (unlockableFault
      (.labelled ("annotate lock: open " ++ lockPath stateDir) fault.toFault)), [])

/-- Takes the lock in a state directory that was made. -/
def enter (stateDir : Bytes) (inside : FileId → FileProgram Result) :
    Except FileFault Unit → FileProgram Result
  | .error fault =>
    done (.error (unlockableFault (.labelled "annotate lock: create state dir" fault.toFault)), [])
  | .ok _ => call (.lock (lockPath stateDir)) (proceedWith stateDir inside)

def leave (file : FileId) (result : Result) : FileProgram Result :=
  call (.unlock file) fun _ => done result

def inside (options : Options) (engine : Engine) (path : Bytes) (file : FileId) :
    FileProgram Result := session options engine path >>= leave file

theorem program_eq (options : Options) (path : Bytes) :
    program options path =
      match options.engine? with
      | none => done (.error (.plain "No triage engine configured."), [])
      | some engine =>
        if options.cancelled then done (.error .cancelled, [])
        else if options.toOutput then session options engine (reportPath options path)
        else FileProgram.makeDirectories (stateDirOf options path) >>=
          enter (stateDirOf options path) (inside options engine (reportPath options path)) := by
  unfold program annotate annotateWith
  rcases options.engine? with _ | engine
  · rfl
  by_cases hcancelled : options.cancelled = true
  · simp only [hcancelled]
    rfl
  by_cases hout : options.toOutput = true
  · simp only [hcancelled, hout]
    exact run_work options engine _
  · simp only [hcancelled, hout]
    refine (Task.run_bind _ _ _).trans ?_
    rw [acquire, Task.run_lift_bind, FileProgram.bind_assoc]
    refine congrArg (FileProgram.bind _) (funext fun made => ?_)
    rcases made with fault | _
    · rfl
    refine congrArg (call _) (funext fun locked => ?_)
    rcases locked with (_ | fault) | file
    · rfl
    · rfl
    have hwork : (ExceptT.lift (work collect options engine (reportPath options path)).run :
        Task (List Event) (Except Fault Outcome)).run.run [] =
          (session options engine (reportPath options path)).bind fun r => done (.ok r.1, r.2) := by
      rw [← run_work]
      rfl
    refine (Task.run_bind _ _ _).trans ((congrArg (FileProgram.bind · _) hwork).trans ?_)
    rw [FileProgram.bind_assoc]
    refine congrArg (FileProgram.bind _) (funext fun result => ?_)
    refine (Task.run_lift_bind _ _ _).trans (congrArg (call _) (funext fun _ => ?_))
    rcases result with ⟨_ | _, events⟩ <;> rfl

end Annotate

end ScanTriage
