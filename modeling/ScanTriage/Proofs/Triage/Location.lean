import ScanTriage.Proofs.Triage.Chain

/-!
# Where a finding lies

The evidence of a finding that is moved to another file changes in its
location only (`Evidence.of_movedTo`). A rule respects a likeness of locations
if it cannot tell like ones apart (`Rule.Respects`); then neither can a chain
of such rules (`Chain.Respects.decide_eq`). The rules on metadata in loops look
at nothing but the path (`Rules.metadataInLoop_respects`). All others look at
nothing but whose code it is (`Demoting.respects`), and that only to take
confidence away (`Demoting.lowers`).
-/

namespace ScanTriage

/-! ## Locations -/

/-- What the evidence says about where a finding lies. -/
structure Location where
  file : Bytes
  path : Bytes
  vendor : Bool
  minified : Bool

namespace Location

def of (file : Bytes) : Location where
  file := file
  path := SourcePath.rooted (Text.lower (SourcePath.normalize file))
  vendor := SourcePath.isVendor file
  minified := SourcePath.isMinified file

/-- The code belongs to the same people and was made in the same way. -/
def SameOwner (p q : Location) : Prop := p.vendor = q.vendor ∧ p.minified = q.minified

def SamePath (p q : Location) : Prop := p.path = q.path

/-- All locations are alike. -/
def Any (_ _ : Location) : Prop := True

end Location

/-- The evidence of the same finding elsewhere. -/
def Evidence.movedTo (e : Evidence) (p : Location) : Evidence :=
  { e with
    finding := { e.finding with file := p.file }
    path := p.path
    vendor := p.vendor
    minified := p.minified }

theorem Evidence.of_movedTo (f : Finding) (file : Bytes) :
    Evidence.of { f with file := file } = (Evidence.of f).movedTo (.of file) := by
  rw [Evidence.of, Evidence.of, Evidence.movedTo, Location.of]

/-! ## Rules that cannot tell locations apart -/

/-- The rule applies to like locations alike, and rules the same. -/
def Rule.Respects (r : Rule) (Like : Location → Location → Prop) : Prop :=
  ∀ (e : Evidence) p q, Like p q → r.applies (e.movedTo p) = r.applies (e.movedTo q) ∧
    r.rule (e.movedTo p) = r.rule (e.movedTo q)

section Respects

variable {Like : Location → Location → Prop} {e : Evidence} {p q : Location}

theorem Rule.Respects.decide_eq {r : Rule} (h : r.Respects Like) (hpq : Like p q) :
    r.decide (e.movedTo p) = r.decide (e.movedTo q) := by
  rw [Rule.decide, Rule.decide, (h e p q hpq).2]

def Chain.Respects (c : Chain) (Like : Location → Location → Prop) : Prop :=
  ∀ r ∈ c.fallback :: c.rules, r.Respects Like

theorem Chain.Respects.decide_eq {c : Chain} (h : c.Respects Like) (hpq : Like p q) :
    c.decide (e.movedTo p) = c.decide (e.movedTo q) := by
  obtain ⟨id, category, rules, fallback⟩ := c
  obtain ⟨hfallback, hrules⟩ := List.forall_mem_cons.mp h
  clear h
  induction rules with
  | nil => exact hfallback.decide_eq hpq
  | cons r rules ih =>
    obtain ⟨hr, hrules⟩ := List.forall_mem_cons.mp hrules
    rw [Chain.decide_cons, Chain.decide_cons, (hr e p q hpq).1, hr.decide_eq hpq,
      ih hfallback hrules]

end Respects

/-! ## What the catalogue looks at -/

/-- The rules on metadata in loops look at the path, but not at whose code it is. -/
theorem Rules.metadataInLoop_respects : Rules.metadataInLoop.Respects Location.SamePath := by
  intro r hr
  simp only [Rules.metadataInLoop, List.mem_cons, List.not_mem_nil, or_false] at hr
  rcases hr with rfl | rfl | rfl | rfl | rfl | rfl | rfl | rfl | rfl
  -- Once the two paths are one variable, both sides unfold to the same text.
  all_goals
    rintro e ⟨file, path, vendor, minified⟩ ⟨file', _, vendor', minified'⟩ rfl
    exact ⟨rfl, rfl⟩

/-- A fixed rule is as blind to locations as its test. -/
theorem Rule.fixed_respects {Like : Location → Location → Prop} {name : Bytes}
    {applies : Evidence → Bool} {classification : Classification} {confidence : Confidence}
    {rationale : Bytes}
    (h : ∀ (e : Evidence) p q, Like p q → applies (e.movedTo p) = applies (e.movedTo q)) :
    (Rule.fixed name applies classification confidence rationale).Respects Like :=
  fun e p q hpq => ⟨h e p q hpq, rfl⟩

theorem Rule.otherwise_respects {Like : Location → Location → Prop} {name : Bytes}
    {classification : Classification} {confidence : Confidence} {rationale : Bytes} :
    (Rule.otherwise name classification confidence rationale).Respects Like :=
  Rule.fixed_respects fun _ _ _ _ => rfl

/-! ## Other people's code -/

/-- `d'` says the same as `d`, with no more confidence. -/
structure Decision.Lowers (d d' : Decision) : Prop where
  classification : d'.classification = d.classification
  confidence : d'.confidence.rank ≤ d.confidence.rank

/-- A rule that sees no location keeps to what it says. -/
theorem Rule.Respects.lowers {r : Rule} (h : r.Respects Location.Any) (e : Evidence)
    (p q : Location) : (r.decide (e.movedTo p)).Lowers (r.decide (e.movedTo q)) := by
  rw [h.decide_eq (p := p) (q := q) trivial]
  exact ⟨rfl, Nat.le_refl _⟩

/-- Rules that do not look at the location, but for a last one that may take
confidence away from what the fallback says about other people's code. -/
inductive Demoting (fallback : Rule) : List Rule → Prop
  | nil : fallback.Respects Location.Any → Demoting fallback []
  | cons {r : Rule} {rules : List Rule} : r.Respects Location.Any → Demoting fallback rules →
    Demoting fallback (r :: rules)
  | located {r : Rule} (respects : r.Respects Location.SameOwner)
    (thirdParty : ∀ e, r.applies e = true → e.thirdParty = true)
    (lowers : ∀ e e', (fallback.decide e).Lowers (r.decide e'))
    (blind : fallback.Respects Location.Any) : Demoting fallback [r]

namespace Demoting

variable {id category : Bytes} {fallback : Rule} {rules : List Rule} {e : Evidence}
  {p q : Location}

theorem respects (h : Demoting fallback rules) :
    Chain.Respects ⟨id, category, rules, fallback⟩ Location.SameOwner := by
  have hweaken : ∀ {r : Rule}, r.Respects Location.Any → r.Respects Location.SameOwner :=
    fun hr e p q _ => hr e p q trivial
  refine List.forall_mem_cons.mpr ?_
  induction h with
  | nil hfallback => exact ⟨hweaken hfallback, List.forall_mem_nil _⟩
  | cons hr _ ih => exact ⟨ih.1, List.forall_mem_cons.mpr ⟨hweaken hr, ih.2⟩⟩
  | located hr _ _ hfallback =>
    exact ⟨hweaken hfallback, List.forall_mem_cons.mpr ⟨hr, List.forall_mem_nil _⟩⟩

/-- From a place of one's own to any other, confidence may only be lost. -/
theorem lowers (h : Demoting fallback rules) (hvendor : p.vendor = false)
    (hminified : p.minified = false) :
    (Chain.decide ⟨id, category, rules, fallback⟩ (e.movedTo p)).Lowers
      (Chain.decide ⟨id, category, rules, fallback⟩ (e.movedTo q)) := by
  induction h with
  | nil hfallback => exact hfallback.lowers e p q
  | cons hr _ ih =>
    rw [Chain.decide_cons, Chain.decide_cons, (hr e q p trivial).1]
    split
    · exact hr.lowers e p q
    · exact ih
  | @located r _ hthirdParty hlowers hfallback =>
    -- At `p` the fallback decides, so only the rule at `q` can make a difference.
    have hown : ¬ r.applies (e.movedTo p) = true := by
      intro hr
      have hforeign := hthirdParty _ hr
      simp [Evidence.thirdParty, Evidence.movedTo, hvendor, hminified] at hforeign
    rw [Chain.decide_cons, Chain.decide_cons, if_neg hown]
    split
    · exact hlowers _ _
    · exact hfallback.lowers e p q

end Demoting

/-- All rules but those on metadata in loops. -/
theorem demoting_of_mem : ∀ c ∈ Chain.all, c.id ≠ ("n-plus-one-pattern" : Bytes) →
    Demoting c.fallback c.rules := by
  have hrank : Confidence.low.rank ≤ Confidence.medium.rank := by decide
  simp only [Chain.all, Topic.all, List.map_cons, List.map_nil, List.forall_mem_cons]
  refine ⟨fun _ => ?debugCode, fun _ => ?httpNoTimeout, fun _ => ?superglobals,
    fun _ => ?unsanitizedRead, fun _ => ?dynamicPattern, fun _ => ?unprepared,
    fun _ => ?missingCapCheck, fun _ => ?restNoPagination, fun _ => ?ajaxPolling,
    fun _ => ?unboundedQuery, fun hid => absurd rfl hid, List.forall_mem_nil _⟩
  case superglobals =>
    iterate 7 refine .cons (Rule.fixed_respects fun _ _ _ _ => rfl) ?_
    exact .located (Rule.fixed_respects fun _ _ _ h => h.1)
      (fun _ h => Bool.or_eq_true_iff.mpr (.inl h)) (fun _ _ => ⟨rfl, hrank⟩)
      Rule.otherwise_respects
  case dynamicPattern | ajaxPolling =>
    refine .cons (Rule.fixed_respects fun _ _ _ _ => rfl) ?_
    exact .located (Rule.fixed_respects fun _ _ _ h => congrArg₂ or h.1 h.2)
      (fun _ h => h) (fun _ _ => ⟨rfl, hrank⟩) Rule.otherwise_respects
  case debugCode | httpNoTimeout => exact .nil Rule.otherwise_respects
  case missingCapCheck | restNoPagination | unboundedQuery =>
    refine .cons (Rule.fixed_respects fun _ _ _ _ => rfl) ?_
    exact .nil Rule.otherwise_respects
  case unsanitizedRead | unprepared =>
    iterate 2 refine .cons (Rule.fixed_respects fun _ _ _ _ => rfl) ?_
    exact .nil Rule.otherwise_respects

/-- The chain of a finding decides wherever the finding is. -/
theorem Finding.classify?_movedTo {f : Finding} {c : Chain} (h : Chain.ofId? f.id = some c)
    (file : Bytes) : Finding.classify? { f with file := file } =
      some (c.decide ((Evidence.of f).movedTo (.of file))) := by
  rw [Finding.classify?_of_ofId? (f := { f with file := file }) h, Evidence.of_movedTo]

theorem Finding.classify?_eq_of_respects {Like : Location → Location → Prop} {f : Finding}
    {c : Chain} (h : Chain.ofId? f.id = some c) (hlike : c.Respects Like) {p q : Bytes}
    (hpq : Like (.of p) (.of q)) :
    Finding.classify? { f with file := p } = Finding.classify? { f with file := q } := by
  rw [Finding.classify?_movedTo h, Finding.classify?_movedTo h, hlike.decide_eq hpq]

/-- A finding in code of one's own, at `p`, is decided no differently anywhere
else, other people's code included, but perhaps with less confidence. Beyond
whose code it is, the path makes no difference. -/
theorem classify?_moved (f : Finding) (p q : Bytes) (hknown : Chain.isKnown f.id = true)
    (hid : f.id ≠ ("n-plus-one-pattern" : Bytes)) :
    ∃ d d', Finding.classify? { f with file := p } = some d ∧
      Finding.classify? { f with file := q } = some d' ∧
      (SourcePath.isVendor p = false → SourcePath.isMinified p = false →
        d'.classification = d.classification ∧ d'.confidence.rank ≤ d.confidence.rank) ∧
      (SourcePath.isVendor p = SourcePath.isVendor q →
        SourcePath.isMinified p = SourcePath.isMinified q → d' = d) := by
  obtain ⟨c, hc⟩ := Option.isSome_iff_exists.mp hknown
  obtain ⟨hmem, hcid⟩ := Chain.mem_of_ofId?_eq_some hc
  have hdemoting : Demoting c.fallback c.rules := demoting_of_mem c hmem (hcid ▸ hid)
  refine ⟨_, _, Finding.classify?_movedTo hc p, Finding.classify?_movedTo hc q, ?_, ?_⟩
  · intro hvendor hminified
    have hlowers : (c.decide ((Evidence.of f).movedTo (.of p))).Lowers
        (c.decide ((Evidence.of f).movedTo (.of q))) := hdemoting.lowers hvendor hminified
    exact ⟨hlowers.classification, hlowers.confidence⟩
  · intro hvendor hminified
    exact (hdemoting.respects.decide_eq ⟨hvendor, hminified⟩).symm

def polling : Finding where
  id := "ajax-polling-unbounded"
  code := "setInterval( refresh, 1000 );"

/-- The script of a theme, and the same one bundled. -/
theorem classify?_moved_polling :
    Chain.isKnown polling.id = true ∧ polling.id ≠ ("n-plus-one-pattern" : Bytes) ∧
      SourcePath.isVendor "theme/poll.js" = false ∧ SourcePath.isMinified "theme/poll.js" = false ∧
      SourcePath.isMinified "theme\\POLL.min.JS" = true ∧
      ∃ d d', Finding.classify? { polling with file := "theme/poll.js" } = some d ∧
        Finding.classify? { polling with file := "theme\\POLL.min.JS" } = some d' ∧
        d'.classification = d.classification ∧ d'.confidence.rank ≤ d.confidence.rank ∧
        d' ≠ d := by
  have hknown : Chain.isKnown polling.id = true := by decide
  have hid : polling.id ≠ ("n-plus-one-pattern" : Bytes) := by decide
  have hvendor : SourcePath.isVendor "theme/poll.js" = false := by decide +kernel
  have hminified : SourcePath.isMinified "theme/poll.js" = false := by decide +kernel
  have hdiffer : Finding.classify? { polling with file := "theme\\POLL.min.JS" } ≠
      Finding.classify? { polling with file := "theme/poll.js" } := by decide +kernel
  obtain ⟨d, d', hd, hd', hlowers, -⟩ :=
    classify?_moved polling "theme/poll.js" "theme\\POLL.min.JS" hknown hid
  obtain ⟨hclassification, hconfidence⟩ := hlowers hvendor hminified
  refine ⟨hknown, hid, hvendor, hminified, by decide +kernel, d, d', hd, hd', hclassification,
    hconfidence, ?_⟩
  rintro rfl
  exact hdiffer (hd'.trans hd.symm)

end ScanTriage
