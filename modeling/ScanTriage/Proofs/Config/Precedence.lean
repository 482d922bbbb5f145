import ScanTriage.Proofs.Config.Places
import ScanTriage.Proofs.FileSystem.Run

/-!
# Which setting counts

A place by itself tells what it sets (`Place.Sets`) and what is wrong with it
(`Place.checks`). The layer that is read off a place makes just these settings,
and fails with the first fault that its checks find (`Place.passes_layer`). So
loading succeeds when every place is in order, fails with the first fault there
is, and gives every field the value of the highest place that sets it.
-/

namespace ScanTriage

/-! ## Checks -/

section FirstFault

variable {checks more : List Check} {check : Check} {fault : Fault}

theorem firstFault_singleton : FirstFault [check] fault ↔ check fault := by
  simp [FirstFault]

theorem forall_not_firstFault_iff :
    (∀ fault, ¬ FirstFault checks fault) ↔ ∀ check ∈ checks, ∀ fault, ¬ check fault := by
  induction checks with
  | nil => simp [FirstFault]
  | cons check checks ih =>
    rw [List.forall_mem_cons, ← ih]
    simp only [FirstFault, not_or, not_and, forall_and]
    exact and_congr_right fun hcheck => forall_congr' fun _ => forall_prop_of_true hcheck

theorem firstFault_append :
    FirstFault (checks ++ more) fault ↔
      FirstFault checks fault ∨ (∀ f, ¬ FirstFault checks f) ∧ FirstFault more fault := by
  induction checks with
  | nil => simp [FirstFault]
  | cons check checks ih =>
    rw [List.cons_append, FirstFault, ih]
    simp only [FirstFault, not_or, not_and, forall_and]
    grind

end FirstFault

/-- Checks fail with the first fault that they find; if they find none, they
pass, and what they pass on has a property. -/
def Passes {α : Type} (x : Except Fault α) (checks : List Check) (holds : α → Prop) : Prop :=
  (∀ fault, x = .error fault ↔ FirstFault checks fault) ∧ ∀ a, x = .ok a → holds a

namespace Passes

variable {α β : Type} {x : Except Fault α} {checks more : List Check} {P : α → Prop} {Q : β → Prop}

theorem pure {a : α} (h : P a) : Passes (.ok a) [] P :=
  ⟨fun _ => ⟨nofun, False.elim⟩, fun _ heq => Except.ok.inj heq ▸ h⟩

theorem pass {a : α} {check : Check} (hcheck : ∀ fault, ¬ check fault) (h : P a) :
    Passes (.ok a) [check] P :=
  ⟨fun fault => by simp [firstFault_singleton, hcheck], fun _ heq => Except.ok.inj heq ▸ h⟩

/-- A check that fails, with one fault. -/
theorem fail {fault : Fault} {check : Check} (hcheck : ∀ f, check f ↔ f = fault) :
    Passes (.error fault) [check] P :=
  ⟨fun f => by simp [firstFault_singleton, hcheck, eq_comm], nofun⟩

theorem bind {k : α → Except Fault β} (hx : Passes x checks P)
    (hk : ∀ a, P a → Passes (k a) more Q) : Passes (x >>= k) (checks ++ more) Q := by
  cases x with
  | error fault =>
    refine ⟨fun f => ?_, nofun⟩
    have hfound : FirstFault checks fault := (hx.1 fault).mp rfl
    rw [firstFault_append, or_iff_left fun h => h.1 fault hfound, ← hx.1]
    exact ⟨fun h => by cases h; rfl, fun h => by cases h; rfl⟩
  | ok a =>
    have hnone : ∀ f, ¬ FirstFault checks f := fun f hf => nomatch (hx.1 f).mpr hf
    have hrest := hk a (hx.2 a rfl)
    refine ⟨fun f => ?_, hrest.2⟩
    rw [firstFault_append, or_iff_right (hnone f), and_iff_right hnone]
    exact hrest.1 f

/-- A last check, after which nothing can fail. -/
theorem map {g : α → β} (hx : Passes x checks P) (hg : ∀ a, P a → Q (g a)) :
    Passes (x >>= fun a => .ok (g a)) checks Q := by
  rw [← List.append_nil checks]
  exact hx.bind fun a ha => Passes.pure (hg a ha)

theorem congr {check other : Check} (hsame : ∀ fault, other fault ↔ check fault)
    (hx : Passes x [check] P) : Passes x [other] P :=
  ⟨fun fault => by rw [hx.1, firstFault_singleton, firstFault_singleton, hsame], hx.2⟩

theorem isOk_iff (h : Passes x checks P) :
    (∃ a, x = .ok a) ↔ ∀ check ∈ checks, ∀ fault, ¬ check fault := by
  rw [← forall_not_firstFault_iff]
  cases x with
  | ok a => exact ⟨fun _ f hf => (nomatch (h.1 f).mpr hf), fun _ => ⟨a, rfl⟩⟩
  | error fault => exact ⟨nofun, fun hnone => absurd ((h.1 fault).mp rfl) (hnone fault)⟩

end Passes

/-- A setting is made just when a value is given to it. -/
def Tells {α : Type} (gives : α → Prop) (value? : Option α) : Prop := ∀ v, value? = some v ↔ gives v

namespace Tells

variable {α : Type} {gives : α → Prop} {value? : Option α}

theorem eq (h : Tells gives value?) : gives = (value? = some ·) :=
  funext fun v => propext (h v).symm

theorem filter {q : α → Prop} [DecidablePred q] (h : Tells gives value?) :
    Tells (fun v => gives v ∧ q v) (value?.filter (q ·)) := by
  intro v
  rw [Option.filter_eq_some_iff, h, decide_eq_true_iff]

theorem nonEmpty {given : Bytes → Prop} {text? : Option Bytes} (h : Tells given text?) :
    Tells (fun text => given text ∧ text ≠ []) (Layer.nonEmpty text?) := by
  intro text
  rw [Layer.nonEmpty, Option.filter_eq_some_iff, h]
  simp

end Tells

theorem tells_self {α : Type} (value? : Option α) : Tells (value? = some ·) value? :=
  fun _ => Iff.rfl

/-- A value given to a variable is the only one. -/
theorem tells_assigned? (name : Bytes) (environment : List Bytes) :
    Tells (HasVariable environment name) (Layer.assigned? name environment) :=
  fun _ => Layer.assigned?_eq_some_iff

namespace Layer

open Check (negative unknown uncounted undecided)
open Integer (Refuses)

variable {given : Bytes → Prop} {word? : Option Bytes}

theorem passes_atLeastZero {given : Int64 → Prop} {n? : Option Int64} (h : Tells given n?)
    (message : Bytes) : Passes (atLeastZero message n?) [negative message given] (Tells given) := by
  obtain rfl := h.eq
  cases n? with
  | none => exact Passes.pass (by simp [negative]) (tells_self none)
  | some n =>
    rw [atLeastZero]
    split
    · next hn => exact Passes.fail fun f => by simp [negative, hn]
    · next hn => exact Passes.pass (by simp [negative, hn]) (tells_self (some n))

theorem spells_some {word name : Bytes} :
    Spells (some word = some ·) name ↔ word ≠ [] ∧ normalize word = name := by
  simp [Spells, normalize]

/-- A choice among values that have different names. -/
theorem passes_choice {α : Type} {name : α → Bytes} (hname : Function.Injective name)
    (known : List α) (h : Tells given word?) (message : Bytes) :
    Passes (choice message (fun word => known.find? fun a => name a == normalize word) word?)
      [unknown message (known.map name) given] (Tells fun a => Spells given (name a)) := by
  obtain rfl := h.eq
  cases word? with
  | none => exact Passes.pass (by simp [unknown, Spells]) fun a => by simp [Spells]
  | some word =>
    rw [choice]
    by_cases hempty : word = []
    · rw [if_pos (by simp [hempty])]
      exact Passes.pass (by simp [unknown, Spells, hempty]) fun a => by simp [Spells, hempty]
    rw [if_neg (by simpa using hempty)]
    cases hfind : known.find? fun a => name a == normalize word with
    | none =>
      rw [List.find?_eq_none] at hfind
      have hunknown : normalize word ∉ known.map name := by
        intro hmem
        obtain ⟨a, ha, hspells⟩ := List.mem_map.mp hmem
        exact hfind a ha (by simp [hspells])
      refine Passes.fail fun f => ⟨And.right, fun hf => ⟨⟨normalize word, ?_, hunknown⟩, hf⟩⟩
      exact spells_some.mpr ⟨hempty, rfl⟩
    | some a =>
      have hspells : name a = normalize word := by simpa using List.find?_some hfind
      have hmem := List.mem_map_of_mem (f := name) (List.mem_of_find?_eq_some hfind)
      refine Passes.pass ?_ fun b => ?_
      · rintro fault ⟨⟨n, hn, hunknown⟩, -⟩
        obtain ⟨-, rfl⟩ := spells_some.mp hn
        exact hunknown (hspells ▸ hmem)
      · change _ ↔ Spells (some word = some ·) (name b)
        rw [spells_some, and_iff_right hempty, Option.some.injEq, ← hspells]
        exact hname.eq_iff.symm

theorem name_injective_level : Function.Injective LogLevel.name := by
  rintro ⟨⟩ ⟨⟩ h <;> first | rfl | exact absurd h (by decide)

theorem name_injective_format : Function.Injective LogFormat.name := by
  rintro ⟨⟩ ⟨⟩ h <;> first | rfl | exact absurd h (by decide)

theorem passes_level (h : Tells given word?) (message : Bytes) :
    Passes (choice message level? word?) [unknown message levelNames given]
      (Tells fun level => Spells given level.name) :=
  passes_choice name_injective_level [.debug, .info, .warn, .error] h message

theorem passes_format (h : Tells given word?) (message : Bytes) :
    Passes (choice message format? word?) [unknown message formatNames given]
      (Tells fun format => Spells given format.name) :=
  passes_choice name_injective_format [.console, .json] h message

theorem nonEmpty_cons (b : UInt8) (rest : Bytes) :
    nonEmpty (some (b :: rest)) = some (b :: rest) := rfl

theorem passes_number (name : Bytes) (environment : List Bytes) :
    Passes (number name environment) [uncounted name (HasVariable environment name)]
      (Tells (Counts (HasVariable environment name))) := by
  rw [(tells_assigned? name environment).eq]
  unfold number
  rcases assigned? name environment with _ | _ | ⟨b, rest⟩
  · exact Passes.pass (by simp [uncounted, negative, Counts]) fun n => by simp [Counts]
  · exact Passes.pass (by simp [uncounted, negative, Counts]) fun n => by simp [Counts]
  · rw [nonEmpty_cons]
    generalize hnumeral : b :: rest = numeral
    have hne : numeral ≠ [] := hnumeral ▸ List.cons_ne_nil b rest
    have hcounts : ∀ n, Counts (some numeral = some ·) n ↔ Integer.readDecimal numeral = .ok n := by
      simp [Counts, hne, Integer.readDecimal_eq_ok]
    dsimp only
    cases hread : Integer.readDecimal numeral with
    | error why =>
      refine Passes.fail fun f => ⟨?_, fun hf => ?_⟩
      · rintro (⟨_, why', ⟨⟩, -, hrefuses, hf⟩ | ⟨⟨n, hn, -⟩, -⟩)
        · rw [← Integer.readDecimal_eq_error, hread] at hrefuses
          cases hrefuses
          exact hf
        · rw [hcounts, hread] at hn
          cases hn
      · exact .inl ⟨numeral, why, rfl, hne, Integer.readDecimal_eq_error.mp hread, hf⟩
    | ok n =>
      have htells : Tells (Counts (some numeral = some ·)) (some n) := by
        intro v
        rw [hcounts, hread, Except.ok.injEq, Option.some.injEq]
      refine Passes.congr (fun f => or_iff_right ?_) (passes_atLeastZero htells _)
      rintro ⟨_, why, ⟨⟩, -, hrefuses, -⟩
      rw [← Integer.readDecimal_eq_error, hread] at hrefuses
      cases hrefuses

theorem passes_answer (name : Bytes) (environment : List Bytes) :
    Passes (answer name environment) [undecided name (HasVariable environment name)]
      (Tells (Replies (HasVariable environment name))) := by
  rw [(tells_assigned? name environment).eq]
  unfold answer
  rcases assigned? name environment with _ | _ | ⟨b, rest⟩
  · exact Passes.pass (by simp [undecided]) fun n => by simp [Replies]
  · exact Passes.pass (by simp [undecided]) fun n => by simp [Replies]
  · rw [nonEmpty_cons]
    dsimp only
    cases hread : answer? (b :: rest) with
    | none =>
      refine Passes.fail fun f => ⟨?_, fun hf => ?_⟩
      · rintro ⟨_, ⟨⟩, -, -, hf⟩
        exact hf
      · exact ⟨_, rfl, List.cons_ne_nil b rest, answer?_eq_none_iff.mp hread, hf⟩
    | some a =>
      refine Passes.pass ?_ fun v => ?_
      · rintro fault ⟨word, ⟨⟩, -, hno, -⟩
        rw [answer?_eq_none_iff.mpr hno] at hread
        cases hread
      · simp [Replies, ← answer?_eq_some_iff, hread]

end Layer

/-! ## Tables -/

namespace Layer

theorem integer?_eq_some_iff {item : Toml.Item} {n : Int64} :
    integer? item = some n ↔ item = .value (.integer n) := by
  unfold integer?
  split <;> simp_all

theorem string?_eq_some_iff {item : Toml.Item} {s : Bytes} :
    string? item = some s ↔ item = .value (.string s) := by
  unfold string?
  split <;> simp_all

theorem boolean?_eq_some_iff {item : Toml.Item} {b : Bool} :
    boolean? item = some b ↔ item = .value (.boolean b) := by
  unfold boolean?
  split <;> grind

theorem tells_setting? {α : Type} {read : Toml.Item → Option α} {make : α → Toml.Item}
    (h : ∀ {item a}, read item = some a ↔ item = make a) (name : Bytes) (members : Toml.Members) :
    Tells (fun a => HasSetting members name (make a)) ((setting? name members).bind read) := by
  intro a
  rw [Option.bind_eq_some_iff]
  simp only [h, setting?_eq_some_iff, exists_eq_right]

theorem allTyped_iff {α : Type} {read : Toml.Item → Option α} {admits : Toml.Item → Prop}
    (h : ∀ item, admits item ↔ ∃ a, read item = some a) {name : Bytes} {members : Toml.Members} :
    allTyped name read members = true ↔
      ∀ m ∈ members, Text.isNamed name m.1 = true → admits m.2 := by
  simp [allTyped, h, Option.isSome_iff_exists, ← Bool.not_eq_true, imp_iff_not_or]

theorem isTyped_iff {members : Toml.Members} : IsTyped members ↔
    allTyped "max_findings" integer? members = true ∧ allTyped "workers" integer? members = true ∧
    allTyped "log_level" string? members = true ∧ allTyped "log_format" string? members = true ∧
    allTyped "log_file" string? members = true ∧ allTyped "state_dir" string? members = true ∧
    allTyped "history_enabled" boolean? members = true ∧
    allTyped "history_max_records" integer? members = true := by
  have hinteger : ∀ item, Kind.integer.Admits item ↔ ∃ n, integer? item = some n := by
    simp [Kind.Admits, integer?_eq_some_iff]
  have hstring : ∀ item, Kind.string.Admits item ↔ ∃ s, string? item = some s := by
    simp [Kind.Admits, string?_eq_some_iff]
  have hboolean : ∀ item, Kind.boolean.Admits item ↔ ∃ b, boolean? item = some b := by
    simp [Kind.Admits, boolean?_eq_some_iff]
  simp only [IsTyped, settings, List.forall_mem_cons, List.not_mem_nil, false_implies,
    implies_true, and_true, allTyped_iff hinteger, allTyped_iff hstring, allTyped_iff hboolean]

def settled (members : Toml.Members) : FileSettings where
  maxFindings := (setting? "max_findings" members).bind integer?
  workers := (setting? "workers" members).bind integer?
  logLevel := (setting? "log_level" members).bind string?
  logFormat := (setting? "log_format" members).bind string?
  logFile := (setting? "log_file" members).bind string?
  stateDir := (setting? "state_dir" members).bind string?
  historyEnabled := (setting? "history_enabled" members).bind boolean?
  historyMaxRecords := (setting? "history_max_records" members).bind integer?

theorem settings?_of_isTyped {members : Toml.Members} (h : IsTyped members) :
    settings? members = some (settled members) := by
  obtain ⟨hmaxFindings, hworkers, hlogLevel, hlogFormat, hlogFile, hstateDir, hhistoryEnabled,
    hhistoryMaxRecords⟩ := isTyped_iff.mp h
  simp [settings?, typed?, settled, hmaxFindings, hworkers, hlogLevel, hlogFormat, hlogFile,
    hstateDir, hhistoryEnabled, hhistoryMaxRecords]

theorem allTyped_of_typed? {α : Type} {name : Bytes} {read : Toml.Item → Option α}
    {members : Toml.Members} {a? : Option α} (h : typed? name read members = some a?) :
    allTyped name read members = true := by
  by_contra hnot
  rw [typed?, if_neg hnot] at h
  cases h

theorem isTyped_of_settings? {members : Toml.Members} {s : FileSettings}
    (h : settings? members = some s) : IsTyped members := by
  simp only [settings?, Option.bind_eq_bind, Option.bind_eq_some_iff] at h
  obtain ⟨_, hmaxFindings, _, hworkers, _, hlogLevel, _, hlogFormat, _, hlogFile, _, hstateDir,
    _, hhistoryEnabled, _, hhistoryMaxRecords, -⟩ := h
  rw [isTyped_iff]
  exact ⟨allTyped_of_typed? hmaxFindings, allTyped_of_typed? hworkers,
    allTyped_of_typed? hlogLevel, allTyped_of_typed? hlogFormat, allTyped_of_typed? hlogFile,
    allTyped_of_typed? hstateDir, allTyped_of_typed? hhistoryEnabled,
    allTyped_of_typed? hhistoryMaxRecords⟩

def settle (path : Bytes) (members : Toml.Members) : Except Fault FileSettings :=
  match settings? members with
  | none => .error (unsettled path)
  | some settings => .ok settings

theorem passes_settle (path : Bytes) (members : Toml.Members) :
    Passes (settle path members) [fun fault => ¬ IsTyped members ∧ fault = unsettled path]
      (· = settled members) := by
  unfold settle
  by_cases htyped : IsTyped members
  · rw [settings?_of_isTyped htyped]
    exact Passes.pass (fun fault h => h.1 htyped) rfl
  · cases hsettings : settings? members with
    | none => exact Passes.fail fun fault => and_iff_right htyped
    | some s => exact absurd (isTyped_of_settings? hsettings) htyped

end Layer

/-! ## Layers -/

namespace Layer

def get (l : Layer) : (f : Field) → Option f.Value
  | .maxFindings => l.maxFindings
  | .workers => l.workers
  | .logLevel => l.logLevel
  | .logFormat => l.logFormat
  | .logFile => l.logFile
  | .stateDir => l.stateDir
  | .historyEnabled => l.historyEnabled
  | .historyMaxRecords => l.historyMaxRecords

end Layer

theorem Config.get_overlay (c : Config) (l : Layer) (f : Field) :
    (c.overlay l).get f = (l.get f).getD (c.get f) := by
  cases f <;> rfl

theorem Config.get_default (f : Field) : ({} : Config).get f = f.default := by
  cases f <;> rfl

namespace Place

open Layer (assigned? passes_settle passes_atLeastZero passes_level passes_format passes_number
  passes_answer settled tells_setting? integer?_eq_some_iff string?_eq_some_iff
  boolean?_eq_some_iff)

def layer : Place → Except Fault Layer
  | missing => .ok {}
  | broken fault => .error fault
  | file path members => Layer.settle path members >>= Layer.ofFile
  | environment assignments => Layer.ofEnvironment assignments
  | commandLine overrides => Layer.ofOverrides overrides

/-- A layer makes the settings of its place. -/
theorem passes_layer (p : Place) :
    Passes p.layer p.checks fun l => ∀ f, Tells (p.Sets f) (l.get f) := by
  cases p with
  | missing => exact Passes.pure fun f v => by cases f <;> simp [Layer.get, Sets]
  | broken fault => exact Passes.fail fun f => Iff.rfl
  | file path ms =>
    have hinteger (name : Bytes) := tells_setting? integer?_eq_some_iff name ms
    have hstring (name : Bytes) := tells_setting? string?_eq_some_iff name ms
    have hboolean (name : Bytes) := tells_setting? boolean?_eq_some_iff name ms
    refine (passes_settle path ms).bind fun s hs => ?_
    subst hs
    refine (passes_atLeastZero (hinteger "max_findings") _).bind fun maxFindings hmaxFindings => ?_
    refine (passes_level (hstring "log_level") _).bind fun logLevel hlogLevel => ?_
    refine (passes_format (hstring "log_format") _).map fun logFormat hlogFormat => ?_
    rintro (_ | _ | _ | _ | _ | _ | _ | _)
    · exact hmaxFindings
    · exact (hinteger "workers").filter
    · exact hlogLevel
    · exact hlogFormat
    · exact hstring "log_file"
    · exact (hstring "state_dir").nonEmpty
    · exact hboolean "history_enabled"
    · exact (hinteger "history_max_records").filter
  | environment e =>
    refine (passes_number _ e).bind fun maxFindings hmaxFindings => ?_
    refine (passes_number _ e).bind fun workers hworkers => ?_
    refine (passes_level (tells_assigned? _ e) _).bind fun logLevel hlogLevel => ?_
    refine (passes_format (tells_assigned? _ e) _).bind fun logFormat hlogFormat => ?_
    refine (passes_answer _ e).bind fun historyEnabled hhistoryEnabled => ?_
    refine (passes_number _ e).map fun historyMaxRecords hhistoryMaxRecords => ?_
    rintro (_ | _ | _ | _ | _ | _ | _ | _)
    · exact hmaxFindings
    · exact hworkers.filter
    · exact hlogLevel
    · exact hlogFormat
    · exact tells_assigned? "WPCC_TRIAGE_LOG_FILE" e
    · exact tells_assigned? "WPCC_TRIAGE_STATE_DIR" e
    · exact hhistoryEnabled
    · exact hhistoryMaxRecords
  | commandLine o =>
    refine (passes_atLeastZero (tells_self _) _).bind fun maxFindings hmaxFindings => ?_
    refine (passes_level (tells_self _) _).bind fun logLevel hlogLevel => ?_
    refine (passes_format (tells_self _) _).map fun logFormat hlogFormat => ?_
    rintro (_ | _ | _ | _ | _ | _ | _ | _)
    · exact hmaxFindings
    · exact (tells_self o.workers).filter
    · exact hlogLevel
    · exact hlogFormat
    · exact tells_self o.logFile
    · exact tells_self o.stateDir
    · exact tells_self o.historyEnabled
    · exact fun v => by simp [Layer.get, Sets]

end Place

/-! ## Loading -/

/-- A place below all others is as good as another base. -/
theorem Field.takes_concat {f : Field} {base v : f.Value} {p : Place} {value? : Option f.Value}
    (h : Tells (p.Sets f) value?) (high : List Place) :
    f.Takes base (high ++ [p]) v ↔ f.Takes (value?.getD base) high v := by
  induction high with
  | nil =>
    change (p.Sets f v ∨ (∀ w, ¬ p.Sets f w) ∧ v = base) ↔ v = value?.getD base
    simp only [← h v, ← h _]
    cases value? with
    | none => simp
    | some w => simp [eq_comm]
  | cons q high ih => exact or_congr_right (and_congr_right fun _ => ih)

namespace Config

/-- The layers of some places laid over a configuration, the lowest first. -/
def overlayAll (c : Config) (places : List Place) : Except Fault Config :=
  places.foldlM (fun c p => c.overlay <$> p.layer) c

theorem overlayAll_cons (c : Config) (p : Place) (places : List Place) :
    c.overlayAll (p :: places) = p.layer >>= fun l => (c.overlay l).overlayAll places := by
  rw [overlayAll, List.foldlM_cons]
  cases p.layer <;> rfl

theorem passes_overlayAll (c : Config) (places : List Place) :
    Passes (c.overlayAll places) (places.flatMap Place.checks)
      fun c' => ∀ f v, c'.get f = v ↔ f.Takes (c.get f) places.reverse v := by
  induction places generalizing c with
  | nil => exact Passes.pure fun f v => eq_comm
  | cons p places ih =>
    rw [overlayAll_cons, List.flatMap_cons]
    refine p.passes_layer.bind fun l hl => ?_
    have hplaces := ih (c.overlay l)
    have hbase : ∀ (f : Field) (v : f.Value), f.Takes ((c.overlay l).get f) places.reverse v ↔
        f.Takes (c.get f) (p :: places).reverse v := by
      intro f v
      rw [get_overlay, List.reverse_cons, Field.takes_concat (hl f)]
    simpa only [hbase] using hplaces

theorem run_read (t : Tree) (path : Bytes) :
    t.run (Layer.read path) = ((Place.ofPath t path).layer, t) := by
  have hstat : t.run (.perform (.stat path)) = (t.statAt path, t) := rfl
  have hread : t.run (.perform (.read path)) = (t.readAt path, t) := rfl
  unfold Layer.read Place.ofPath
  rw [Tree.run_task_lift hstat]
  cases hinfo : t.statAt path with
  | error fault =>
    by_cases hmissing : fault.reason = .notFound
    · simp [hmissing, Place.layer]
      rfl
    · simp [hmissing, Place.layer]
      rfl
  | ok info =>
    cases htext : t.readAt path with
    | error fault =>
      exact Tree.run_task_error (Tree.run_orTell_error (hread.trans (by rw [htext]))) _
    | ok text =>
      refine (Tree.run_task_ok (Tree.run_orTell_ok (hread.trans (by rw [htext]))) _).trans ?_
      dsimp only [Layer.fileSettings?]
      cases Toml.read? text with
      | none => rfl
      | some members =>
        dsimp only [Place.layer, Layer.settle, Option.bind]
        cases Layer.settings? members with
        | none => rfl
        | some settings =>
          dsimp only [bind, Except.bind]
          cases Layer.ofFile settings <;> rfl

theorem run_give (t : Tree) (layer : Except Fault Layer) : t.run (give layer) = (layer, t) := by
  cases layer <;> rfl

theorem run_overlay {t : Tree} {x : FileTask Layer} {p : Place} (hx : t.run x = (p.layer, t))
    {c : Config} {places : List Place} {next : Layer → FileTask Config}
    (hnext : ∀ l, t.run (next l) = ((c.overlay l).overlayAll places, t)) :
    t.run (x >>= next : FileTask Config) = (c.overlayAll (p :: places), t) := by
  rw [Tree.run_task_bind, hx, overlayAll_cons]
  cases p.layer with
  | error fault => rfl
  | ok l => exact hnext l

theorem run_load (t : Tree) (s : Sources) :
    t.run (load s) = (({} : Config).overlayAll (s.places t), t) := by
  have hrest : ∀ c : Config, t.run (do
      let environmentLayer ← give (Layer.ofEnvironment s.environment)
      let overrideLayer ← give (Layer.ofOverrides s.overrides)
      pure ((c.overlay environmentLayer).overlay overrideLayer) : FileTask Config) =
        (c.overlayAll [.environment s.environment, .commandLine s.overrides], t) := by
    intro c
    refine run_overlay (p := .environment s.environment) (run_give t _) fun l => ?_
    exact run_overlay (p := .commandLine s.overrides) (run_give t _) fun l => rfl
  refine run_overlay (run_read t s.globalFile) fun globalLayer => ?_
  split
  · exact run_overlay (p := .missing) rfl fun _ => hrest _
  · exact run_overlay (run_read t _) fun _ => hrest _

/-- Loading succeeds when every place is in order by itself, and fails with the
first fault there is otherwise. On success every field has the value that the
highest place gives it which gives it one, or its default. -/
theorem load_takes_highest (s : Sources) (t : Tree) :
    ∃ answer, t.run (load s) = (answer, t) ∧
      ((∃ c, answer = .ok c) ↔ ∀ p ∈ s.places t, p.InOrder) ∧
      (∀ fault, answer = .error fault ↔
        FirstFault ((s.places t).flatMap Place.checks) fault) ∧
      ∀ c, answer = .ok c → ∀ f v, c.get f = v ↔ f.Takes f.default (s.places t).reverse v := by
  have hpasses := passes_overlayAll {} (s.places t)
  refine ⟨_, run_load t s, ?_, hpasses.1, ?_⟩
  · rw [hpasses.isOk_iff]
    simp only [List.mem_flatMap, Place.InOrder]
    exact ⟨fun h p hp check hcheck => h check ⟨p, hp, hcheck⟩,
      fun h check ⟨p, hp, hcheck⟩ => h p hp check hcheck⟩
  · intro c hc f v
    rw [hpasses.2 c hc, get_default]

/-- Every place has its say: a name in capitals and a word with blanks in the
global file, an assignment that is repeated, and a cap on the command line. What
the command line overrides is refused all the same. -/
theorem load_takes_highest_mixed :
    let t : Tree :=
      { nodes := [(["g.toml"], .file 0
            "max_findings = 50\nworkers = 4\nLOG_FORMAT = \" Json \"\nhistory_max_records = -1\n" 0o644),
          (["p"], .directory 0o755), (["p", ".wpcc"], .directory 0o755),
          (["p", ".wpcc", "triage.toml"], .file 1
            "workers = 0\nlog_level = \"info\"\nlog_file = \"\"\nhistory_enabled = false\n" 0o644)]
        serial := 2 }
    let environment : List Bytes := ["WPCC_TRIAGE_LOG_LEVEL=error", " WPCC_TRIAGE_LOG_LEVEL = DEBUG ",
      "WPCC_TRIAGE_WORKERS=", "WPCC_TRIAGE_HISTORY_ENABLED=Yes"]
    let s : Sources :=
      { root := "/p", globalFile := "/g.toml", environment := environment
        overrides := { maxFindings := some 7 } }
    let refused : Sources := { s with environment := "WPCC_TRIAGE_MAX_FINDINGS=9x" :: environment }
    let c : Config := { maxFindings := 7, workers := 4, logLevel := .debug, logFormat := .json }
    (t.run (load s)).1 = .ok c ∧ (∀ p ∈ s.places t, p.InOrder) ∧
      (∀ f : Field, f.Takes f.default (s.places t).reverse (c.get f)) ∧
      FirstFault ((refused.places t).flatMap Place.checks)
        (.user "WPCC_TRIAGE_MAX_FINDINGS must be a valid number."
          (.plain "strconv.ParseInt: parsing \"9x\": invalid syntax")) := by
  intro t environment s refused c
  have hload : (t.run (load s)).1 = .ok c := by decide +kernel
  have hrefused : (t.run (load refused)).1 =
      .error (.user "WPCC_TRIAGE_MAX_FINDINGS must be a valid number."
        (.plain "strconv.ParseInt: parsing \"9x\": invalid syntax")) := by decide +kernel
  obtain ⟨answer, hrun, hok, -, htakes⟩ := load_takes_highest s t
  obtain rfl : answer = .ok c := by rw [← hload, hrun]
  obtain ⟨_, hrun', -, hfails, -⟩ := load_takes_highest refused t
  rw [hrun'] at hrefused
  exact ⟨hload, hok.mp ⟨c, rfl⟩, fun f => (htakes c rfl f _).mp rfl, (hfails _).mp hrefused⟩

end Config

end ScanTriage
