import ScanTriage.Proofs.Text.Compact
import ScanTriage.Proofs.Triage.Chain

/-!
# Spacing

The heuristics look at the path and at the text without white space. So they
cannot tell findings apart whose code is spaced differently
(`classify?_respaced`): the compact text is put together from the compact code
and the compact snippets (`compact_proximate`), and trimming the code first
makes no difference to it.
-/

namespace ScanTriage

/-! ## The compact text -/

def Finding.HasValidCode (f : Finding) : Prop :=
  Utf8.isValid f.code = true ∧ ∀ s ∈ f.context, Utf8.isValid s.code = true

/-- Two findings in one file, the code and each snippet of which differ in
spacing. -/
structure Finding.Respaced (f g : Finding) : Prop where
  file : f.file = g.file
  code : Text.Respaced f.code g.code
  context : List.Forall₂ (fun a b : Snippet => Text.Respaced a.code b.code) f.context g.context

theorem Evidence.compact_proximate {code : Bytes} {context : List Snippet}
    (hcode : Utf8.isValid code = true) (hcontext : ∀ s ∈ context, Utf8.isValid s.code = true) :
    Text.compact (proximate code context) =
      Text.compact code ++ context.flatMap fun s => Text.compact s.code := by
  rw [proximate, Text.compact_append hcode]
  congr 1
  induction context with
  | nil => rfl
  | cons s context ih =>
    obtain ⟨hs, hcontext⟩ := List.forall_mem_cons.mp hcontext
    rw [List.flatMap_cons, List.flatMap_cons, Text.compact_append hs, ih hcontext]

theorem Evidence.compact_context {context context' : List Snippet}
    (h : List.Forall₂ (fun a b : Snippet => Text.Respaced a.code b.code) context context')
    (hvalid : ∀ s ∈ context, Utf8.isValid s.code = true)
    (hvalid' : ∀ s ∈ context', Utf8.isValid s.code = true) :
    (context.flatMap fun s => Text.compact s.code) =
      context'.flatMap fun s => Text.compact s.code := by
  induction h with
  | nil => rfl
  | cons hab _ ih =>
    obtain ⟨ha, hvalid⟩ := List.forall_mem_cons.mp hvalid
    obtain ⟨hb, hvalid'⟩ := List.forall_mem_cons.mp hvalid'
    rw [List.flatMap_cons, List.flatMap_cons, hab.compact_eq ha hb, ih hvalid hvalid']

/-- What the heuristics look at. -/
structure Evidence.SameSigns (e e' : Evidence) : Prop where
  path : e.path = e'.path
  compact : e.compact = e'.compact

theorem Finding.Respaced.sameSigns {f g : Finding} (h : f.Respaced g) (hf : f.HasValidCode)
    (hg : g.HasValidCode) : (Evidence.of f).SameSigns (Evidence.of g) where
  path := by simp only [Evidence.of, h.file]
  compact := by
    -- The blanks that trimming looks for need not be ASCII, so it goes last.
    have hcode : Text.compact (Text.trim f.code) = Text.compact (Text.trim g.code) := by
      rw [Text.compact_trim hf.1, Text.compact_trim hg.1, h.code.compact_eq hf.1 hg.1]
    simp only [Evidence.of]
    rw [Evidence.compact_proximate (Text.isValid_trim hf.1) hf.2,
      Evidence.compact_proximate (Text.isValid_trim hg.1) hg.2, hcode,
      Evidence.compact_context h.context hf.2 hg.2]

/-! ## The heuristics -/

namespace Evidence.SameSigns

variable {e e' : Evidence}

/-- A function that looks at nothing but the signs gives the same for both. -/
theorem apply_eq {β : Sort*} (h : e.SameSigns e') {φ : Evidence → β}
    (hφ : ∀ a : Evidence, φ a = φ { e with path := a.path, compact := a.compact }) :
    φ e = φ e' := by
  rw [hφ e, hφ e', h.path, h.compact]

theorem detect? (h : e.SameSigns e') : CachePriming.detect? e = CachePriming.detect? e' :=
  h.apply_eq fun _ => rfl

theorem manyMarker? (h : e.SameSigns e') : LoopShape.manyMarker? e = LoopShape.manyMarker? e' :=
  h.apply_eq fun _ => rfl

theorem loopShape (h : e.SameSigns e') : LoopShape.of e = LoopShape.of e' :=
  h.apply_eq fun _ => rfl

theorem isBounded (h : e.SameSigns e') : Rules.isBounded e = Rules.isBounded e' :=
  h.apply_eq fun _ => rfl

theorem unboundedQuery (h : e.SameSigns e') :
    Rules.unboundedQuery.decide e = Rules.unboundedQuery.decide e' := by
  have hids : e.compactHasAny Rules.idsOnly = e'.compactHasAny Rules.idsOnly :=
    h.apply_eq (φ := (·.compactHasAny Rules.idsOnly)) fun _ => rfl
  simp only [Rules.unboundedQuery, Chain.decide_cons, Chain.decide_nil, Rule.fixed, Rule.otherwise,
    Rule.decide, hids]

end Evidence.SameSigns

/-- However the code and the snippets are spaced, the heuristics see the same:
a warm cache for the same reason, the same shape of the loop, the same bound. -/
theorem classify?_respaced {f g : Finding} (h : f.Respaced g) (hf : f.HasValidCode)
    (hg : g.HasValidCode) :
    (Evidence.of f).compact = (Evidence.of g).compact ∧
      CachePriming.detect? (Evidence.of f) = CachePriming.detect? (Evidence.of g) ∧
      LoopShape.of (Evidence.of f) = LoopShape.of (Evidence.of g) ∧
      LoopShape.manyMarker? (Evidence.of f) = LoopShape.manyMarker? (Evidence.of g) ∧
      Rules.isBounded (Evidence.of f) = Rules.isBounded (Evidence.of g) ∧
      (f.id = ("wp-query-unbounded" : Bytes) → g.id = ("wp-query-unbounded" : Bytes) →
        ∃ d, f.classify? = some d ∧ g.classify? = some d) := by
  have hsigns := h.sameSigns hf hg
  refine ⟨hsigns.compact, hsigns.detect?, hsigns.loopShape, hsigns.manyMarker?, hsigns.isBounded,
    fun hfid hgid => ⟨Rules.unboundedQuery.decide (.of f), ?_, ?_⟩⟩
  · exact Finding.classify?_of_ofId? (Chain.ofId?_eq hfid rfl)
  · have hchain : Chain.ofId? g.id = some Rules.unboundedQuery := Chain.ofId?_eq hgid rfl
    rw [Finding.classify?_of_ofId? hchain, hsigns.unboundedQuery]

/-- A query between two no-break spaces, generously spaced. -/
def spacedQuery : Finding where
  id := "wp-query-unbounded"
  file := "views/list.php"
  code := "\t \u00a0 new WP_Query( [ 'fields' => 'ids' ] ); \u00a0"
  context := [⟨7, "foreach ( $posts as $post )\r\n"⟩]

/-- The same query as an editor may leave it. -/
def tightQuery : Finding where
  id := "wp-query-unbounded"
  file := "views/list.php"
  line := 12
  code := "\u00a0newWP_Query(['fields'=>'ids']);\n\u00a0\n"
  context := [⟨0, " foreach($posts as $post)"⟩]

theorem classify?_respaced_query :
    spacedQuery.Respaced tightQuery ∧ spacedQuery.HasValidCode ∧ tightQuery.HasValidCode ∧
      (Evidence.of spacedQuery).compact = (Evidence.of tightQuery).compact ∧
      LoopShape.of (Evidence.of spacedQuery) = LoopShape.of (Evidence.of tightQuery) ∧
      ∃ d, spacedQuery.classify? = some d ∧ tightQuery.classify? = some d ∧
        d.classification = .falsePositive := by
  have hrespaced : spacedQuery.Respaced tightQuery :=
    ⟨rfl, by decide +kernel, .cons (by decide +kernel) .nil⟩
  have hspaced : spacedQuery.HasValidCode := by
    unfold Finding.HasValidCode
    decide +kernel
  have htight : tightQuery.HasValidCode := by
    unfold Finding.HasValidCode
    decide +kernel
  have hcleared : spacedQuery.classify?.map (·.classification) = some .falsePositive := by
    decide +kernel
  obtain ⟨hcompact, -, hshape, -, -, hdecision⟩ := classify?_respaced hrespaced hspaced htight
  obtain ⟨d, hd, hd'⟩ := hdecision rfl rfl
  rw [hd] at hcleared
  exact ⟨hrespaced, hspaced, htight, hcompact, hshape, d, hd, hd', Option.some.inj hcleared⟩

end ScanTriage
