import ScanTriage.Proofs.Text.Pieces
import ScanTriage.Proofs.Triage.Chain

/-!
# Markers near a finding

Markers are looked for in the flagged line and its snippets put together. A
marker is found if the line or a snippet has it, and also if it runs over the
end of one into another (`textHas_iff`). Snippets that start with a byte which
the marker lacks, such as a blank, rule the latter out.
-/

namespace ScanTriage

open Bytes (Straddles Apart)

namespace Finding

variable {f : Finding} {part : Bytes}

/-- The flagged line without the white space around it, and the snippets. -/
def pieces (f : Finding) : List Bytes := Text.trim f.code :: f.context.map (·.code)

/-- The flagged line or one of the snippets has the part. -/
def Shows (f : Finding) (part : Bytes) : Prop :=
  part <:+: Text.trim f.code ∨ ∃ s ∈ f.context, part <:+: s.code

theorem shows_iff : f.Shows part ↔ ∃ p ∈ f.pieces, part <:+: p := by
  simp [Shows, pieces]

theorem text_eq_flatten (f : Finding) : (Evidence.of f).text = f.pieces.flatten := by
  simp [Evidence.of, Evidence.proximate, pieces, List.flatMap]

theorem infix_text_iff (hpart : part ≠ []) :
    part <:+: (Evidence.of f).text ↔ f.Shows part ∨ Straddles part f.pieces := by
  rw [text_eq_flatten, Bytes.infix_flatten_iff hpart, shows_iff]

end Finding

/-! ## Rules that clear -/

/-- The rules that clear request data and patterns by what stands near them,
and what they look for. -/
def clearingMarkers : List (Bytes × List Bytes) :=
  [ ("nonce-helper-nearby", ["verify_request_nonce"]),
    ("absint-cast-nearby", ["absint("]),
    ("admin-referer-check-nearby", ["check_admin_referer"]),
    ("regex-escaped", Rules.escapeIdioms) ]

/-- A rule of the table applies only where the text has one of its markers. -/
def Rule.LooksFor (r : Rule) : Prop :=
  ∀ markers, clearingMarkers.lookup r.name = some markers →
    ∀ e, r.applies e = true → e.textHasAny markers = true

theorem Rule.looksFor_of_none {r : Rule} (h : clearingMarkers.lookup r.name = none) :
    r.LooksFor := by
  intro markers hmarkers
  rw [h] at hmarkers
  cases hmarkers

theorem Rule.looksFor_of_some {r : Rule} {markers : List Bytes}
    (h : clearingMarkers.lookup r.name = some markers)
    (happlies : ∀ e, r.applies e = true → e.textHasAny markers = true) : r.LooksFor := by
  intro markers' hmarkers
  rw [h] at hmarkers
  cases hmarkers
  exact happlies

theorem Evidence.textHasAny_singleton {e : Evidence} {part : Bytes} :
    e.textHasAny [part] = e.textHas part := by
  cases h : e.textHas part <;> simp_all [textHasAny, firstIn?, textHas]

theorem Rule.looksFor_of_textHas {r : Rule} {part : Bytes}
    (h : clearingMarkers.lookup r.name = some [part])
    (happlies : ∀ e, r.applies e = true → e.textHas part = true) : r.LooksFor := by
  refine Rule.looksFor_of_some h fun e he => ?_
  rw [Evidence.textHasAny_singleton]
  exact happlies e he

/-- The rules that clear are the ones of the table. -/
theorem Chain.all_looksFor : ∀ c ∈ Chain.all, ∀ r ∈ c.fallback :: c.rules, r.LooksFor := by
  simp only [Chain.all, Topic.all, List.map_cons, List.map_nil, List.forall_mem_cons]
  refine ⟨?_, ?_, ?_, ?_, ?_, ?_, ?_, ?_, ?_, ?_, ?_, List.forall_mem_nil _⟩
  all_goals
    simp only [Rules.debugCode, Rules.httpNoTimeout, Rules.superglobals, Rules.unsanitizedRead,
      Rules.dynamicPattern, Rules.unprepared, Rules.missingCapCheck, Rules.restNoPagination,
      Rules.ajaxPolling, Rules.unboundedQuery, Rules.metadataInLoop, List.forall_mem_cons]
    repeat' apply And.intro
  all_goals try first
    | exact List.forall_mem_nil _
    | exact Rule.looksFor_of_none (by decide)
  -- What is left are the rules of the table, in the order of the catalogue.
  · exact Rule.looksFor_of_textHas rfl fun e h => (Bool.and_eq_true_iff.mp h).2
  · exact Rule.looksFor_of_textHas rfl fun e h => h
  · exact Rule.looksFor_of_textHas rfl fun e h => h
  · exact Rule.looksFor_of_some rfl fun e h => h

theorem Chain.fallback_applies : ∀ c ∈ Chain.all, ∀ e, c.fallback.applies e = true := by
  simp only [Chain.all, Topic.all, List.map_cons, List.map_nil, List.forall_mem_cons]
  refine ⟨?_, ?_, ?_, ?_, ?_, ?_, ?_, ?_, ?_, ?_, ?_, List.forall_mem_nil _⟩
  all_goals exact fun _ => rfl

theorem Chain.deciding_applies {c : Chain} (hc : c ∈ Chain.all) (e : Evidence) :
    (c.deciding e).applies e = true := by
  unfold Chain.deciding
  cases h : c.rules.find? (·.applies e) with
  | none => exact Chain.fallback_applies c hc e
  | some r =>
    have happlies := List.find?_some h
    exact happlies

theorem Finding.textHasAny_of_clears {f : Finding} {d : Decision} {markers : List Bytes}
    (hd : f.classify? = some d) (hrule : clearingMarkers.lookup d.rule = some markers) :
    (Evidence.of f).textHasAny markers = true := by
  obtain ⟨chain, hchain, rfl⟩ := Option.map_eq_some_iff.mp hd
  obtain ⟨hmem, -⟩ := Chain.mem_of_ofId?_eq_some hchain
  exact Chain.all_looksFor chain hmem _ (chain.deciding_mem _) markers hrule _
    (Chain.deciding_applies hmem _)

theorem clearingMarkers_ne_nil {rule : Bytes} {markers : List Bytes}
    (h : clearingMarkers.lookup rule = some markers) : [] ∉ markers := by
  have hall : ∀ entry ∈ clearingMarkers, [] ∉ entry.2 := by decide
  obtain ⟨before, after, hsplit, -⟩ := List.lookup_eq_some_iff.mp h
  exact hall (rule, markers) (by simp [hsplit])

/-! ## What the text shows -/

theorem Finding.textHasAny_iff {f : Finding} {parts : List Bytes} (hparts : [] ∉ parts) :
    (Evidence.of f).textHasAny parts = true ↔
      ∃ p ∈ parts, f.Shows p ∨ Straddles p f.pieces := by
  rw [Evidence.textHasAny, firstIn?_isSome, Bytes.HasAny]
  refine exists_congr fun p => and_congr_right fun hp => Finding.infix_text_iff ?_
  rintro rfl
  exact hparts hp

/-- A marker is found in the text of a finding if the flagged line or a snippet
has it, or if it runs over the end of one of them; the same holds of each of
several markers. It does not run over where the snippets start with other
bytes. A finding that is cleared by its text has a marker in it in one of the
two ways. -/
theorem textHas_iff (f : Finding) (part : Bytes) (hpart : part ≠ []) :
    ((Evidence.of f).textHas part = true ↔ f.Shows part ∨ Straddles part f.pieces) ∧
    (∀ parts : List Bytes, [] ∉ parts → ((Evidence.of f).textHasAny parts = true ↔
      ∃ p ∈ parts, f.Shows p ∨ Straddles p f.pieces)) ∧
    (Apart part (f.context.map (·.code)) →
      ((Evidence.of f).textHas part = true ↔ f.Shows part)) ∧
    ∀ d markers, f.classify? = some d → clearingMarkers.lookup d.rule = some markers →
      ∃ m ∈ markers, f.Shows m ∨ Straddles m f.pieces := by
  have htext : (Evidence.of f).textHas part = true ↔ f.Shows part ∨ Straddles part f.pieces := by
    rw [Evidence.textHas, Bytes.occurs_iff, Finding.infix_text_iff hpart]
  refine ⟨htext, fun parts hparts => Finding.textHasAny_iff hparts, fun hapart => ?_, ?_⟩
  · rw [htext, or_iff_left]
    exact hapart.not_straddles
  · intro d markers hd hrule
    exact (Finding.textHasAny_iff (clearingMarkers_ne_nil hrule)).mp
      (Finding.textHasAny_of_clears hd hrule)

/-- A value that is cast in the next line, which is indented. -/
def castBelow : Finding where
  id := "unsanitized-superglobal-read"
  code := "  $id = $_GET['id'];"
  context := [⟨8, "  $id = absint( $id );"⟩, ⟨0, ""⟩]

theorem textHas_iff_castBelow :
    ("absint(" : Bytes) ≠ [] ∧ Apart ("absint(" : Bytes) (castBelow.context.map (·.code)) ∧
      (Evidence.of castBelow).textHas "absint(" = true ∧ castBelow.Shows "absint(" := by
  have hpart : ("absint(" : Bytes) ≠ [] := by decide
  have hapart : Apart ("absint(" : Bytes) (castBelow.context.map (·.code)) := by
    unfold Apart
    decide +kernel
  have htext : (Evidence.of castBelow).textHas "absint(" = true := by decide +kernel
  obtain ⟨-, -, hexact, -⟩ := textHas_iff castBelow "absint(" hpart
  exact ⟨hpart, hapart, htext, (hexact hapart).mp htext⟩

/-- A remark at the end of the flagged line and a cast to an integer behind it. -/
def brokenMarker : Finding where
  id := "unsanitized-superglobal-read"
  code := "$id = $_GET['id']; // abs"
  context := [⟨8, "int( $id );"⟩]

/-- A marker that neither the line nor the snippet has clears the finding. -/
theorem textHas_of_straddles :
    (Evidence.of brokenMarker).textHas "absint(" = true ∧
      (Evidence.of brokenMarker).textHasAny ["absint("] = true ∧
      ¬ brokenMarker.Shows "absint(" ∧
      brokenMarker.classify?.map (fun d => (d.classification, d.rule)) =
        some (.falsePositive, ("absint-cast-nearby" : Bytes)) := by
  refine ⟨by decide +kernel, by decide +kernel, ?_, by decide +kernel⟩
  rw [Finding.Shows]
  simp only [← Bytes.occurs_iff]
  decide +kernel

end ScanTriage
