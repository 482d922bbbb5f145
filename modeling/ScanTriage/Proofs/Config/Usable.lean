import ScanTriage.Cli.Run
import ScanTriage.Proofs.Annotate.Program
import ScanTriage.Proofs.Config.Precedence
import ScanTriage.Proofs.Triage.Windows

/-!
# Loaded configurations can be used

A place that is in order sets a field to a value that the program can work with
(`Place.allows_of_sets`), and so do the defaults. Since every field takes its
value from one of them, a configuration that could be loaded is in order as a
whole: a logger can be set up for it, and an engine with its cap reports that
cap.
-/

namespace ScanTriage

/-! ## Values that are allowed -/

/-- The values of a field that the program can work with. -/
def Field.Allows : (f : Field) → f.Value → Prop
  | maxFindings, n => 0 ≤ n
  | workers, n => 1 ≤ n
  | logLevel, level => level.name ∈ levelNames
  | logFormat, format => format.name ∈ formatNames
  | logFile, _ => True
  | stateDir, _ => True
  | historyEnabled, _ => True
  | historyMaxRecords, n => 0 ≤ n

namespace Place

open Check (negative unknown uncounted)

variable {message name : Bytes} {names : List Bytes} {given : Bytes → Prop}

theorem le_of_negative {given : Int64 → Prop} (h : ∀ fault, ¬ negative message given fault)
    {n : Int64} (hn : given n) : 0 ≤ n := by
  by_contra hneg
  exact h _ ⟨⟨n, hn, Int64.not_le.mp hneg⟩, rfl⟩

theorem mem_of_unknown (h : ∀ fault, ¬ unknown message names given fault)
    (hspells : Spells given name) : name ∈ names := by
  by_contra hnot
  exact h _ ⟨⟨name, hspells, hnot⟩, rfl⟩

theorem le_of_uncounted (h : ∀ fault, ¬ uncounted name given fault) {n : Int64}
    (hcounts : Counts given n) : 0 ≤ n :=
  le_of_negative (fun fault hfault => h fault (.inr hfault)) hcounts

theorem one_le_of_pos {n : Int64} (h : 0 < n) : 1 ≤ n := by
  rw [Int64.lt_iff_toInt_lt] at h
  rw [Int64.le_iff_toInt_le]
  exact h

/-- A place that is in order sets a field to a value that is allowed. -/
theorem allows_of_sets {p : Place} (hp : p.InOrder) {f : Field} {v : f.Value}
    (h : p.Sets f v) : f.Allows v := by
  cases p with
  | missing => exact h.elim
  | broken => exact h.elim
  | file path ms =>
    simp only [InOrder, checks, List.forall_mem_cons] at hp
    obtain ⟨-, hmaxFindings, hlogLevel, hlogFormat, -⟩ := hp
    cases f with
    | maxFindings => exact le_of_negative hmaxFindings h
    | workers => exact one_le_of_pos h.2
    | logLevel => exact mem_of_unknown hlogLevel h
    | logFormat => exact mem_of_unknown hlogFormat h
    | historyMaxRecords => exact h.2
    | logFile | stateDir | historyEnabled => trivial
  | environment e =>
    simp only [InOrder, checks, List.forall_mem_cons] at hp
    obtain ⟨hmaxFindings, -, hlogLevel, hlogFormat, -, hmaxRecords, -⟩ := hp
    cases f with
    | maxFindings => exact le_of_uncounted hmaxFindings h
    | workers => exact one_le_of_pos h.2
    | logLevel => exact mem_of_unknown hlogLevel h
    | logFormat => exact mem_of_unknown hlogFormat h
    | historyMaxRecords => exact le_of_uncounted hmaxRecords h
    | logFile | stateDir | historyEnabled => trivial
  | commandLine o =>
    simp only [InOrder, checks, List.forall_mem_cons] at hp
    obtain ⟨hmaxFindings, hlogLevel, hlogFormat, -⟩ := hp
    cases f with
    | maxFindings => exact le_of_negative hmaxFindings h
    | workers => exact one_le_of_pos h.2
    | logLevel => exact mem_of_unknown hlogLevel h
    | logFormat => exact mem_of_unknown hlogFormat h
    | historyMaxRecords => exact h.elim
    | logFile | stateDir | historyEnabled => trivial

end Place

theorem Field.allows_default (f : Field) : f.Allows f.default := by
  cases f with
  | logFile | stateDir | historyEnabled => trivial
  | _ => unfold Field.Allows Field.default; decide

/-- Whichever place decides, the value is allowed. -/
theorem Field.allows_of_takes {f : Field} {base v : f.Value} {places : List Place}
    (hbase : f.Allows base) (hplaces : ∀ p ∈ places, p.InOrder) (h : f.Takes base places v) :
    f.Allows v := by
  induction places with
  | nil => exact (show v = base from h) ▸ hbase
  | cons p below ih =>
    rw [List.forall_mem_cons] at hplaces
    rcases h with hsets | ⟨-, hbelow⟩
    · exact Place.allows_of_sets hplaces.1 hsets
    · exact ih hplaces.2 hbelow

/-! ## Loggers -/

theorem LogLevel.ofName?_lower_name (level : LogLevel) :
    LogLevel.ofName? (Text.lower level.name) = some level := by
  cases level <;> decide +kernel

/-- A logger takes every level and every format by its name. -/
theorem Logger.ofSettings_name (level : LogLevel) (format : LogFormat) (name : Bytes) :
    Logger.ofSettings level.name format.name name = .ok ⟨level, format, name⟩ := by
  have hlevel : level.name.isEmpty = false := by cases level <;> decide
  have hconsole : Text.lower LogFormat.console.name = "console" := by decide +kernel
  have hjson : Text.lower LogFormat.json.name = "json" := by decide +kernel
  rw [Logger.ofSettings, hlevel, LogLevel.ofName?_lower_name]
  cases format with
  | console => rw [hconsole]; rfl
  | json => rw [hjson]; rfl

/-! ## Configurations -/

namespace Config

/-- What the program relies on in a configuration. -/
structure IsUsable (c : Config) : Prop where
  maxFindings : 0 ≤ c.maxFindings
  workers : 1 ≤ c.workers
  historyMaxRecords : 0 ≤ c.historyMaxRecords
  logLevel : c.logLevel ∈ [LogLevel.debug, .info, .warn, .error]
  logFormat : c.logFormat ∈ [LogFormat.console, .json]

theorem isUsable_of_allows {c : Config} (h : ∀ f : Field, f.Allows (c.get f)) : c.IsUsable where
  maxFindings := h .maxFindings
  workers := h .workers
  historyMaxRecords := h .historyMaxRecords
  logLevel := by
    have hname : c.logLevel.name ∈ [LogLevel.debug, .info, .warn, .error].map LogLevel.name :=
      h .logLevel
    exact (List.mem_map_of_injective Layer.name_injective_level).mp hname
  logFormat := by
    have hname : c.logFormat.name ∈ [LogFormat.console, .json].map LogFormat.name := h .logFormat
    exact (List.mem_map_of_injective Layer.name_injective_format).mp hname

theorem isUsable_of_load {s : Sources} {t : Tree} {c : Config} (h : (t.run (load s)).1 = .ok c) :
    c.IsUsable := by
  have hpasses := passes_overlayAll {} (s.places t)
  rw [run_load] at h
  rw [show ({} : Config).overlayAll (s.places t) = .ok c from h] at hpasses
  have hchecks := hpasses.isOk_iff.mp ⟨c, rfl⟩
  refine isUsable_of_allows fun f => ?_
  have htakes := (hpasses.2 c rfl f _).mp rfl
  rw [get_default] at htakes
  refine Field.allows_of_takes f.allows_default (fun p hp check hcheck => ?_) htakes
  exact hchecks check (List.mem_flatMap.mpr ⟨p, List.mem_reverse.mp hp, hcheck⟩)

end Config

namespace Engine

/-- A report names the cap of its engine. -/
theorem maxReviewed_of_runWith {schedule : Schedule} {engine : Engine}
    {findings? : Option (List Finding)} {report : Report} {events : List Event}
    (h : engine.runWith schedule findings? = .ok (report, events)) :
    report.scope.maxReviewed = engine.limit := by
  obtain ⟨s, rfl⟩ := exists_report_of_runWith h
  rfl

end Engine

/-! ## Commands -/

namespace Cli

theorem Task.run_give {α : Type} (x : Except Fault α) (p : Progress) :
    (Task.give x).run.run p = .done (x, p) := by
  cases x <;> rfl

theorem Task.run_files {α : Type} (x : FileTask α) (p : Progress) :
    (Task.files x).run.run p = x.run.bind fun answer => .done (answer, p) := by
  refine (Annotate.Task.run_lift_bind x.run Task.give p).trans ?_
  exact congrArg x.run.bind (funext fun answer => run_give answer p)

/-- What a command is configured with was loaded. -/
theorem exists_load_of_configure {call : Call} {site : Site} {overrides : Layer.Overrides}
    {t : Tree} {p : Progress} {c : Config}
    (h : (t.run ((configure call site overrides).run.run p)).1.1 = .ok c) :
    ∃ s : Config.Sources, (t.run (Config.load s)).1 = .ok c := by
  have hload : ∀ s : Config.Sources,
      (t.run ((Task.files (Config.load s)).run.run p)).1.1 = .ok c →
        (t.run (Config.load s)).1 = .ok c := by
    intro s hs
    rw [Task.run_files] at hs
    have hbind := Tree.run_bind (Config.load s).run (fun answer => .done (answer, p)) t
    exact (congrArg (fun x => x.1.1) hbind).symm.trans hs
  rw [configure] at h
  split at h
  · rw [Annotate.Task.run_bind, Task.run_give] at h
    cases hfile : Config.defaultGlobalFile (Environment.settle call.environment) with
    | error fault =>
      rw [hfile] at h
      cases h
    | ok file =>
      rw [hfile] at h
      exact ⟨_, hload _ h⟩
  · exact ⟨_, hload _ h⟩

theorem Journal.of_eq_ok (call : Call) (c : Config) : Journal.of call c = .ok
    { logger := ⟨c.logLevel, c.logFormat, programName⟩
      file := { path := c.logFile, now := call.now }
      time := Timestamp.renderMillis call.now } := by
  rw [Journal.of, Logger.ofSettings_name]

end Cli

/-- A configuration that could be loaded is usable: its numbers and names are in
their ranges, so that a logger can be set up for it, also by a command that is
configured with it, and an engine with its cap reports that cap. -/
theorem Config.load_usable (c : Config) :
    (∀ (s : Sources) (t : Tree), (t.run (load s)).1 = .ok c →
      c.IsUsable ∧
      (∀ name, Logger.ofSettings c.logLevel.name c.logFormat.name name =
        .ok ⟨c.logLevel, c.logFormat, name⟩) ∧
      ∀ (schedule : Engine.Schedule) (engine : Engine) (findings? : Option (List Finding))
        (report : Report) (events : List Event), engine.maxFindings = c.maxFindings →
        engine.runWith schedule findings? = .ok (report, events) →
        report.scope.maxReviewed = c.maxFindings) ∧
    ∀ (call : Cli.Call) (site : Cli.Site) (overrides : Layer.Overrides) (t : Tree)
      (p : Cli.Progress), (t.run ((Cli.configure call site overrides).run.run p)).1.1 = .ok c →
      c.IsUsable ∧ ∃ journal, Cli.Journal.of call c = .ok journal := by
  refine ⟨fun s t hload => ?_, fun call site overrides t p hconfigure => ?_⟩
  · have husable := isUsable_of_load hload
    refine ⟨husable, Logger.ofSettings_name _ _, ?_⟩
    intro schedule engine findings? report events hcap hrun
    have hlimit : engine.limit = engine.maxFindings := by
      rw [Engine.limit, hcap, if_neg (Int64.not_lt.mpr husable.maxFindings)]
    rw [Engine.maxReviewed_of_runWith hrun, hlimit, hcap]
  · obtain ⟨s, hload⟩ := Cli.exists_load_of_configure hconfigure
    exact ⟨isUsable_of_load hload, _, Cli.Journal.of_eq_ok call c⟩

/-- Values that are passed over, respelled and overridden, in every place. -/
theorem Config.load_usable_respelled :
    let t : Tree :=
      { nodes := [(["g.toml"], .file 0
          "workers = -3\nlog_format = \" JSON \"\nhistory_max_records = -1\n" 0o644)]
        serial := 1 }
    let environment : List Bytes := ["WPCC_TRIAGE_LOG_LEVEL=Debug", "WPCC_TRIAGE_WORKERS=0"]
    let overrides : Layer.Overrides := { maxFindings := some 0 }
    let s : Sources := { globalFile := "/g.toml", environment := environment, overrides := overrides }
    let call : Cli.Call := { arguments := [], environment := environment, working := "/", now := 0 }
    let c : Config := { maxFindings := 0, logLevel := .debug, logFormat := .json }
    (t.run (load s)).1 = .ok c ∧ c.IsUsable ∧
      (∃ report events, Engine.run { maxFindings := c.maxFindings } none = .ok (report, events) ∧
        report.scope.maxReviewed = 0) ∧
      (t.run ((Cli.configure call ⟨[], "/g.toml"⟩ overrides).run.run {})).1.1 = .ok c ∧
      ∃ journal, Cli.Journal.of call c = .ok journal := by
  intro t environment overrides s call c
  have hload : (t.run (load s)).1 = .ok c := by decide +kernel
  have hconfigure : (t.run ((Cli.configure call ⟨[], "/g.toml"⟩ overrides).run.run {})).1.1 =
      .ok c := by decide +kernel
  obtain ⟨husable, -, hcap⟩ := (load_usable c).1 s t hload
  obtain ⟨report, events, hrun⟩ : ∃ report events,
      Engine.run { maxFindings := c.maxFindings } none = .ok (report, events) := ⟨_, _, rfl⟩
  refine ⟨hload, husable, ⟨report, events, hrun, hcap _ _ _ _ _ rfl hrun⟩, hconfigure, ?_⟩
  exact ((load_usable c).2 call _ overrides t {} hconfigure).2

end ScanTriage
