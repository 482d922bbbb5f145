import ScanTriage.Cli.Explanation
import ScanTriage.Proofs.Number.Numerals
import ScanTriage.Proofs.Triage.Chain
import ScanTriage.Proofs.Triage.Windows

/-!
# Traces

The account that a chain keeps of the rules it tries is true: rules that do not
apply, and then the one that decided (`Chain.tried_evaluate`). A run that works through
its windows in order shows the findings it took, each once
(`Engine.windows_shown`), and those are the ones that the plain loop takes.
-/

namespace ScanTriage

/-! ## One finding -/

namespace Chain

variable {e : Evidence}

def attempt (outcome name : Bytes) : Bytes := "  " ++ name ++ outcome

/-- A decision of a chain and the lines on the rules that were tried for it:
those that do not apply, and then either the first that does or, behind all
rules, the fallback. -/
inductive Tried (c : Chain) (e : Evidence) (d : Decision) : List Bytes → Prop
  | matched {passed rest : List Rule} {r : Rule} (order : c.rules = passed ++ r :: rest)
    (fail : ∀ q ∈ passed, q.applies e = false) (holds : r.applies e = true)
    (decides : d = r.decide e) (named : d.rule = r.name) :
    Tried c e d (passed.map (fun q => attempt ": no" q.name) ++ [attempt ": MATCH" d.rule])
  | default (fail : ∀ q ∈ c.rules, q.applies e = false) (decides : d = c.fallback.decide e)
    (named : d.rule = c.fallback.name) :
    Tried c e d (c.rules.map (fun q => attempt ": no" q.name) ++ [attempt ": DEFAULT" d.rule])

theorem Tried.cons {id category : Bytes} {r fallback : Rule} {rules : List Rule} {d : Decision}
    {lines : List Bytes} (hr : r.applies e = false)
    (h : Tried ⟨id, category, rules, fallback⟩ e d lines) :
    Tried ⟨id, category, r :: rules, fallback⟩ e d (attempt ": no" r.name :: lines) := by
  cases h with
  | matched order fail holds decides named =>
    exact .matched (congrArg (r :: ·) order) (List.forall_mem_cons.mpr ⟨hr, fail⟩) holds decides
      named
  | default fail decides named =>
    exact .default (List.forall_mem_cons.mpr ⟨hr, fail⟩) decides named

theorem tried_evaluate (c : Chain) (e : Evidence) :
    c.Tried e (c.evaluate e).1 (c.evaluate e).2 := by
  obtain ⟨id, category, rules, fallback⟩ := c
  induction rules with
  | nil => exact .default (List.forall_mem_nil _) rfl rfl
  | cons r rules ih =>
    by_cases h : r.applies e = true
    · have heval : evaluate ⟨id, category, r :: rules, fallback⟩ e =
          (r.decide e, [attempt ": MATCH" r.name]) := by
        simp [evaluate, evaluateOf, attempt, h]
      rw [heval]
      have horder : r :: rules = [] ++ r :: rules := rfl
      exact .matched horder (List.forall_mem_nil _) h rfl rfl
    · have heval : evaluate ⟨id, category, r :: rules, fallback⟩ e =
          ((evaluate ⟨id, category, rules, fallback⟩ e).1,
            attempt ": no" r.name :: (evaluate ⟨id, category, rules, fallback⟩ e).2) := by
        simp [evaluate, evaluateOf, attempt, h]
      rw [heval]
      exact ih.cons (Bool.eq_false_iff.mpr h)

/-- The rule table lists a chain with these rules in this order. -/
def IsListed (c : Chain) (rules : List Bytes) : Prop :=
  ∃ chains hooks, ruleTable = .mapping [("chains", .sequence chains), hooks] ∧
    .mapping [("id", .text c.id), ("category", .text c.category),
      ("rules", .sequence (rules.map .text)), ("default", .text c.fallback.name)] ∈ chains

theorem isListed {c : Chain} (h : c ∈ Chain.all) : c.IsListed (c.rules.map (·.name)) := by
  refine ⟨Chain.all.map (·.toYaml), _, rfl, ?_⟩
  have hmem : c.toYaml ∈ Chain.all.map (·.toYaml) := List.mem_map_of_mem h
  rwa [toYaml, ← Function.comp_def Yaml.text, ← List.map_map] at hmem

end Chain

namespace Finding

def verdict (d : Decision) : Bytes :=
  "  => " ++ d.classification.label ++ "/" ++ d.confidence.label

variable {f : Finding} {tracer : Tracer}

theorem trial_of_ofId? {chain : Chain} (h : Chain.ofId? f.id = some chain) :
    f.trial = (some (chain.evaluate (.of f)).1,
      f.header :: (chain.evaluate (.of f)).2 ++ [verdict (chain.evaluate (.of f)).1]) := by
  rw [trial, h]
  rfl

theorem classifyTraced_fst (tracer : Tracer) (f : Finding) :
    (f.classifyTraced tracer).1 = f.classify? := by
  unfold classifyTraced
  split
  · exact f.trial_fst
  · rfl

theorem classifyTraced_snd (h : tracer.isEnabled = true) (f : Finding) :
    (f.classifyTraced tracer).2 = (TraceStep.block f.explanation).render := by
  simp [classifyTraced, explanation, Tracer.write, h]

end Finding

/-! ## A run -/

def Event.step? : Event → Option TraceStep
  | .trace step => some step
  | .log _ => none

def Tracer.written (tracer : Tracer) (events : List Event) : Bytes :=
  (events.filterMap Event.step?).flatMap tracer.write

namespace Engine

variable {engine : Engine} {schedule : Schedule} {findings? : Option (List Finding)}
  {total : Int64}

def shown (f : Finding) : Event := .trace (.block f.explanation)

theorem isSequential_of_workers {workers : Int64} (h : workers ≤ 1) (window : List Finding) :
    isSequential workers window = true := by
  simp [isSequential, h]

theorem classifyWindow_sequential {workers : Int64} (h : workers ≤ 1)
    (order : List (Nat × Finding) → List (Nat × Finding)) (window : List Finding) :
    classifyWindow workers order window = classifyWindow workers id window := by
  simp [classifyWindow, isSequential_of_workers h]

/-- A window that is worked through in its order shows its findings in that order. -/
theorem classifyWindow_shown {workers : Int64} (h : workers ≤ 1)
    (order : List (Nat × Finding) → List (Nat × Finding)) (window : List Finding) :
    (classifyWindow workers order window).2 = window.map shown := by
  simp only [classifyWindow, isSequential_of_workers h, if_true]
  apply List.ext_getElem <;> simp [shown, classifyOne, Finding.explanation]

theorem State.add_rest (s : State) (o : Outcome) : (s.add o).rest = s.rest := by
  unfold State.add
  split <;> rfl

theorem State.foldl_add_rest (outcomes : List Outcome) (s : State) :
    (outcomes.foldl State.add s).rest = s.rest := by
  induction outcomes generalizing s with
  | nil => rfl
  | cons o outcomes ih => rw [List.foldl_cons, ih, State.add_rest]

/-- One window: what it takes from the rest is what it shows. -/
theorem advance_shown (h : engine.workers ≤ 1) (s : State) :
    ∃ window, s.rest = window ++ (advance schedule engine total s).1.rest ∧
      (advance schedule engine total s).2 = window.map shown := by
  refine ⟨s.rest.take ((windowEnd engine.limit total s - s.position).toNatClampNeg), ?_, ?_⟩
  · simp only [advance, State.foldl_add_rest]
    exact (List.take_append_drop _ _).symm
  · simp only [advance]
    exact classifyWindow_shown h _ _

/-- All windows: what they take from the rest is what they show. -/
theorem windows_shown (h : engine.workers ≤ 1) {fuel : Nat} {s s' : State}
    {events events' : List Event}
    (hrun : windows schedule engine total fuel s events = .ok (s', events')) :
    ∃ taken, s.rest = taken ++ s'.rest ∧ events' = events ++ taken.map shown := by
  induction fuel generalizing s events with
  | zero =>
    cases hrun
    exact ⟨[], rfl, by simp⟩
  | succ fuel ih =>
    rw [windows] at hrun
    split at hrun
    · split at hrun
      · cases hrun
      · obtain ⟨window, hrest, hshown⟩ := advance_shown h s
        change windows schedule engine total fuel (advance schedule engine total s).1
          (events ++ (advance schedule engine total s).2) = _ at hrun
        rw [hshown] at hrun
        obtain ⟨taken, hrest', rfl⟩ := ih hrun
        refine ⟨window ++ taken, ?_, ?_⟩
        · rw [hrest, hrest', List.append_assoc]
        · rw [List.map_append, List.append_assoc]
    · cases hrun
      exact ⟨[], rfl, by simp⟩

/-- Without a second worker the schedule does not matter. -/
theorem windows_sequential (h : engine.workers ≤ 1) (schedule : Schedule) {fuel : Nat} {s : State}
    {events : List Event} :
    windows schedule engine total fuel s events =
      windows (fun _ => id) engine total fuel s events := by
  have hadvance : ∀ s, advance schedule engine total s = advance (fun _ => id) engine total s := by
    intro s
    simp only [advance, classifyWindow_sequential h (schedule s.position)]
  induction fuel generalizing s events with
  | zero => rfl
  | succ fuel ih =>
    rw [windows, windows, hadvance]
    simp only [ih]

theorem runWith_sequential (h : engine.workers ≤ 1) :
    engine.runWith schedule findings? = engine.run findings? := by
  simp only [run, runWith, windows_sequential h schedule]

/-- A run that was called off and ends nevertheless had nothing to do. -/
theorem runWith_of_cancelled {result : Report × List Event}
    (h : engine.runWith schedule findings? = .ok result) :
    { engine with cancelled := false }.runWith schedule findings? = .ok result := by
  cases hcancelled : engine.cancelled with
  | false =>
    obtain ⟨_, _, _, _, _⟩ := engine
    cases hcancelled
    exact h
  | true =>
    rw [runWith, windows, hcancelled] at h
    rw [runWith, windows]
    split at h
    · cases h
    · next hstop =>
      have hstop' : ¬ State.goesOn { engine with cancelled := false }.limit
          (Int64.ofNat (findings?.getD []).length) { rest := findings?.getD [] } = true := hstop
      rw [if_neg hstop']
      exact h

def totals (reviewed unrecognized cap : Nat) : Bytes :=
  "reviewed=" ++ Bytes.decimal reviewed ++ " unrecognized=" ++ Bytes.decimal unrecognized ++
    " cap=" ++ Bytes.decimal cap ++ "\n"

theorem closing_after {seen rest : List Finding} (hseen : seen.length < 2 ^ 63) :
    closing engine.limit (State.after seen rest) =
      totals (recordsOf seen).length (seen.countP fun f => !f.isKnown) engine.cap := by
  have hrecords := length_recordsOf_le seen
  have hskipped : seen.countP (fun f => !f.isKnown) ≤ seen.length := List.countP_le_length
  rw [closing, State.after_reviewed, limit_eq, Bytes.decimalInt64_ofNat (by omega),
    Bytes.decimalInt64_ofNat engine.cap_lt, State.after, Bytes.decimalInt64_ofNat (by omega)]
  rfl

/-- A run shows the findings that the plain loop takes, in their order. -/
theorem run_shown (h : engine.workers ≤ 1) (hlive : engine.cancelled = false)
    (hf : Addressable (findings?.getD [])) :
    ∃ examined rest, findings?.getD [] = examined ++ rest ∧ Stops engine.cap examined rest ∧
      engine.run findings? = .ok (engine.report findings? (State.after examined rest),
        .trace (.section "Classify") :: examined.map shown ++
          [ .log (completion (Int64.ofNat (findings?.getD []).length) (State.after examined rest)),
            .trace (.print (closing engine.limit (State.after examined rest))) ]) := by
  have hs : Schedule.IsOrder fun _ => id := fun _ places => List.Perm.refl places
  obtain ⟨blocks, hwindows⟩ := windows_after hs hf hlive [.trace (.section "Classify")]
    (Between.start engine.cap (findings?.getD [])) (Nat.lt_succ_self _)
  obtain ⟨examined, rest, hsplit, hstops, hplain⟩ := plain_eq_after engine hf
  rw [State.after_nil, ← plain, hplain] at hwindows
  obtain ⟨taken, htaken, hshown⟩ := windows_shown h hwindows
  have hsame : examined = taken := by
    have hrest : (State.after examined rest).rest = rest := rfl
    rw [hrest] at htaken
    exact List.append_cancel_right (hsplit.symm.trans htaken)
  subst hsame
  refine ⟨examined, rest, hsplit, hstops, ?_⟩
  rw [run, runWith, hwindows, hshown]
  rfl

/-- What a tracer writes of such a run. -/
theorem written_run {tracer : Tracer} (htracer : tracer.isEnabled = true) (h : engine.workers ≤ 1)
    (hf : Addressable (findings?.getD [])) {report : Report} {events : List Event}
    (hrun : engine.runWith schedule findings? = .ok (report, events)) :
    ∃ examined rest, findings?.getD [] = examined ++ rest ∧ Stops engine.cap examined rest ∧
      tracer.written events = (TraceStep.section "Classify").render ++
        examined.flatMap (fun f => (f.classifyTraced tracer).2) ++
        totals (recordsOf examined).length (examined.countP fun f => !f.isKnown) engine.cap := by
  have hlive := runWith_of_cancelled hrun
  have hworkers : { engine with cancelled := false }.workers ≤ 1 := h
  rw [runWith_sequential hworkers] at hlive
  obtain ⟨examined, rest, hsplit, hstops, hevents⟩ := run_shown hworkers rfl hf
  have hseen : examined.length < 2 ^ 63 := by
    have hlen : (findings?.getD []).length = examined.length + rest.length := by
      rw [hsplit, List.length_append]
    unfold Addressable at hf
    omega
  rw [hevents, closing_after hseen] at hlive
  cases hlive
  have hblocks : (examined.map shown).filterMap Event.step? =
      examined.map fun f => TraceStep.block f.explanation := by
    simp [List.filterMap_map, shown, Event.step?, Function.comp_def]
  refine ⟨examined, rest, hsplit, hstops, ?_⟩
  simp only [Tracer.written, List.cons_append, List.filterMap_cons, List.filterMap_append, hblocks,
    Event.step?, List.filterMap_nil, List.flatMap_cons, List.flatMap_append, List.flatMap_nil,
    List.flatMap_map, Finding.classifyTraced_snd htracer, Tracer.write, htracer, if_true]
  simp only [TraceStep.render, List.append_nil, List.append_assoc]
  rfl

end Engine

/-- A finding is decided with a tracer as without. The tracer is shown where the
finding is, the rules in the order of the rule table up to the one that
decides, and the verdict. A run without a second worker shows a header, the
findings that the plain loop takes, in their order, and the totals. -/
theorem classifyTraced_faithful (tracer : Tracer) (htracer : tracer.isEnabled = true) :
    (∀ f : Finding, (f.classifyTraced tracer).1 = f.classify?) ∧
    (∀ (f : Finding) (chain : Chain), Chain.ofId? f.id = some chain →
      ∃ d attempts, f.classify? = some d ∧ chain.Tried (.of f) d attempts ∧
        chain.IsListed (chain.rules.map (·.name)) ∧
        (f.classifyTraced tracer).2 =
          (TraceStep.block (f.header :: attempts ++ [Finding.verdict d])).render) ∧
    (∀ f : Finding, Chain.ofId? f.id = none →
      (f.classifyTraced tracer).2 =
        (TraceStep.block [f.header, "  (unrecognized identifier, not triaged)"]).render) ∧
    ∀ (engine : Engine) (schedule : Engine.Schedule) (findings? : Option (List Finding)),
      engine.workers ≤ 1 → Engine.Addressable (findings?.getD []) →
      (engine.cancelled = false → ∃ result, engine.runWith schedule findings? = .ok result) ∧
      ∀ report events, engine.runWith schedule findings? = .ok (report, events) →
        ∃ examined rest, findings?.getD [] = examined ++ rest ∧
          Engine.Stops engine.cap examined rest ∧
          tracer.written events = (TraceStep.section "Classify").render ++
            examined.flatMap (fun f => (f.classifyTraced tracer).2) ++
            Engine.totals (recordsOf examined).length (examined.countP fun f => !f.isKnown)
              engine.cap := by
  refine ⟨Finding.classifyTraced_fst tracer, ?_, ?_, ?_⟩
  · intro f chain hchain
    have htried := chain.tried_evaluate (.of f)
    rw [chain.evaluate_fst] at htried
    refine ⟨_, _, Finding.classify?_of_ofId? hchain, htried,
      Chain.isListed (Chain.mem_of_ofId?_eq_some hchain).1, ?_⟩
    rw [Finding.classifyTraced_snd htracer, Finding.explanation, Finding.trial_of_ofId? hchain,
      chain.evaluate_fst]
  · intro f hnone
    rw [Finding.classifyTraced_snd htracer, Finding.explanation, Finding.trial, hnone]
  · intro engine schedule findings? hworkers hf
    refine ⟨fun hlive => ?_, fun report events hrun => ?_⟩
    · obtain ⟨examined, rest, -, -, hrun⟩ := Engine.run_shown hworkers hlive hf
      exact ⟨_, (Engine.runWith_sequential hworkers).trans hrun⟩
    · exact Engine.written_run htracer hworkers hf hrun

/-- A table that is truncated, which the second rule of its chain decides. -/
def truncation : Finding where
  id := "wpdb-query-no-prepare"
  file := "a.php"
  line := 7
  code := "TRUNCATE TABLE x"

/-- A cap of one: the finding before is examined as well, the one behind is not. -/
theorem classifyTraced_faithful_truncation :
    let findings : List Finding := [{ id := "unheard-of" }, truncation, { id := "http-no-timeout" }]
    let engine : Engine := { maxFindings := 1 }
    Tracer.writing.isEnabled = true ∧ engine.workers ≤ 1 ∧ Engine.Addressable findings ∧
    (truncation.classifyTraced .writing).2 = Bytes.ofString
      ("[wpcc:trace] wpdb-query-no-prepare a.php:7\n" ++
        "[wpcc:trace]   constant-found-rows: no\n" ++
        "[wpcc:trace]   truncate-table: MATCH\n" ++
        "[wpcc:trace]   => Needs Review/medium\n") ∧
    ∃ report events examined rest, engine.runWith (fun _ => id) (some findings) =
        .ok (report, events) ∧ findings = examined ++ rest ∧
      Engine.Stops engine.cap examined rest ∧
      Tracer.writing.written events = (TraceStep.section "Classify").render ++
        examined.flatMap (fun f => (f.classifyTraced .writing).2) ++
        Engine.totals (recordsOf examined).length (examined.countP fun f => !f.isKnown) 1 := by
  intro findings engine
  have hf : Engine.Addressable findings := by unfold Engine.Addressable; decide
  obtain ⟨-, -, -, hruns⟩ := classifyTraced_faithful .writing rfl
  obtain ⟨hends, hshown⟩ := hruns engine (fun _ => id) (some findings) (by decide) hf
  obtain ⟨⟨report, events⟩, hrun⟩ := hends rfl
  obtain ⟨examined, rest, hsplit, hstops, hwritten⟩ := hshown report events hrun
  exact ⟨rfl, by decide, hf, by decide +kernel, report, events, examined, rest, hrun, hsplit,
    hstops, hwritten⟩

end ScanTriage
