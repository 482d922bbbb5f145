import Mathlib.Data.Option.Basic
import ScanTriage.Proofs.Triage.LoopVerdict

/-!
# What the heuristics cite

An explanation names a marker, and the marker stands where the explanation says
it does. `CachePriming.Cited` lists the places for a warm cache. Each tier of
the detector cites what it found (`CachePriming.IsGrounded`), and where it stays
silent there is nothing to cite (`CachePriming.detect?_isSome_of_cited`).
`LoopShape.IsGrounded` says the same of the shape of a loop.
-/

namespace ScanTriage

open Bytes (HasAny)

theorem of_firstIn? {text marker : Bytes} {markers : List Bytes}
    (h : firstIn? text markers = some marker) : marker ∈ markers ∧ marker <:+: text :=
  ⟨List.mem_of_find?_eq_some h, Bytes.occurs_iff.mp (by simpa using List.find?_some h)⟩

theorem Marker.of_firstIn? {κ : Type} {text : Bytes} {markers : List (Marker κ)} {m : Marker κ}
    (h : Marker.firstIn? text markers = some m) : m ∈ markers ∧ m.text <:+: text :=
  ⟨List.mem_of_find?_eq_some h, Bytes.occurs_iff.mp (by simpa using List.find?_some h)⟩

theorem ObjectKind.label_mem (kind : ObjectKind) :
    kind.label ∈ [("user" : Bytes), "post", "comment", "term"] := by
  cases kind <;> decide

/-! ## Hooks -/

namespace Hook

/-- The text that registers a callback on a hook, by the quotes around its name. -/
def registration (quote : UInt8) (name : Bytes) : Bytes :=
  ("add_action(" : Bytes) ++ [quote] ++ name ++ [quote]

/-- The hook's name is the quoted first argument of a registration. -/
def IsRegistered (name text : Bytes) : Prop :=
  ∃ quote ∈ [Bytes.apostrophe, Bytes.quote], registration quote name <:+: text

theorem isRegisteredIn_iff {hook : Hook} {text : Bytes} :
    hook.isRegisteredIn text = true ↔ IsRegistered hook.name text := by
  have hsingle : ("add_action('" : Bytes) ++ hook.name ++ "'" =
      registration Bytes.apostrophe hook.name := rfl
  have hdouble : ("add_action(\"" : Bytes) ++ hook.name ++ "\"" =
      registration Bytes.quote hook.name := rfl
  simp only [isRegisteredIn, hsingle, hdouble, Bool.or_eq_true, Bytes.occurs_iff, IsRegistered]
  simp

theorem IsRegistered.hasAny {name text : Bytes} (h : IsRegistered name text) :
    HasAny ["add_action('" ++ name ++ "'", "add_action(\"" ++ name ++ "\""] text := by
  obtain ⟨quote, hquote, hin⟩ := h
  simp only [List.mem_cons, List.not_mem_nil, or_false] at hquote
  rcases hquote with rfl | rfl
  · exact ⟨_, List.mem_cons_self, hin⟩
  · exact ⟨_, List.mem_cons_of_mem _ List.mem_cons_self, hin⟩

theorem kindOf?_name : ∀ hook ∈ all, kindOf? hook.name = some hook.kind := by decide

theorem exists_of_kindOf? {name : Bytes} {kind : ObjectKind} (h : kindOf? name = some kind) :
    ∃ hook ∈ all, hook.name = name ∧ hook.kind = kind := by
  obtain ⟨hook, hfind, hkind⟩ := Option.map_eq_some_iff.mp h
  exact ⟨hook, List.mem_of_find?_eq_some hfind, by simpa using List.find?_some hfind, hkind⟩

end Hook

/-! ## Warm caches -/

namespace CachePriming

/-- What may be cited for a warm cache: signal, marker and kind of object, by
where the marker stands. -/
inductive Cited (e : Evidence) : PrimingSignal → Bytes → ObjectKind → Prop
  | path {m : Marker ObjectKind} (known : m ∈ pathFragments) (view : HasAny viewMarkers e.path)
    (stands : m.text <:+: e.path) : Cited e .path m.text m.kind
  | priming {m : Marker ObjectKind} (known : m ∈ primingCalls) (stands : m.text <:+: e.compact) :
    Cited e .priming m.text m.kind
  | preload {m : Marker ObjectKind} (known : m ∈ preloadMarkers)
    (stands : m.text <:+: e.compact) : Cited e .preload m.text m.kind
  | hook {name : Bytes} {kind : ObjectKind} (known : Hook.kindOf? name = some kind)
    (registered : Hook.IsRegistered name e.compact) : Cited e .hook name kind
  | viewParam {param : Marker ObjectKind} {read : Marker (Option ObjectKind)}
    (known : param ∈ boundParams) (view : HasAny viewMarkers e.path)
    (stands : param.text <:+: e.compact) (reads : read ∈ metaReads)
    (called : read.text <:+: e.compact) :
    Cited e .viewParam param.text (read.kind.getD param.kind)

/-- An explanation that names the kind of object and cites what is there. -/
structure IsGrounded (e : Evidence) (p : CachePriming) : Prop where
  kind : p.kind.label ∈ [("user" : Bytes), "post", "comment", "term"]
  named : p.kind.label <:+: p.justification
  cited : Cited e p.signal p.marker p.kind

variable {e : Evidence} {p : CachePriming}

theorem isGrounded_of_ofPath? (h : ofPath? e = some p) : p.IsGrounded e := by
  unfold ofPath? at h
  split at h
  · next hview =>
    obtain ⟨m, hm, rfl⟩ := Option.map_eq_some_iff.mp h
    obtain ⟨hknown, hstands⟩ := Marker.of_firstIn? hm
    refine ⟨m.kind.label_mem, ?_, .path hknown (inView_iff.mp hview) hstands⟩
    exact List.infix_append_of_infix_left (List.infix_append _ _ _)
  · cases h

theorem isGrounded_of_ofBulkCall? (h : ofBulkCall? e = some p) : p.IsGrounded e := by
  obtain ⟨m, hm, rfl⟩ := Option.map_eq_some_iff.mp h
  obtain ⟨hknown, hstands⟩ := Marker.of_firstIn? hm
  refine ⟨m.kind.label_mem, ?_, .priming hknown hstands⟩
  exact List.infix_append_of_infix_left (List.infix_append_of_infix_left (List.infix_append _ _ _))

theorem isGrounded_of_ofPreload? (h : ofPreload? e = some p) : p.IsGrounded e := by
  obtain ⟨m, hm, rfl⟩ := Option.map_eq_some_iff.mp h
  obtain ⟨hknown, hstands⟩ := Marker.of_firstIn? hm
  exact ⟨m.kind.label_mem, List.infix_append _ _ _, .preload hknown hstands⟩

theorem isGrounded_of_ofHook? (h : ofHook? e = some p) : p.IsGrounded e := by
  obtain ⟨hook, hfind, rfl⟩ := Option.map_eq_some_iff.mp h
  have hregistered := List.find?_some hfind
  refine ⟨hook.kind.label_mem, List.infix_append _ _ _, .hook ?_ ?_⟩
  · exact Hook.kindOf?_name hook (List.mem_of_find?_eq_some hfind)
  · exact Hook.isRegisteredIn_iff.mp hregistered

theorem isGrounded_of_ofViewParam? (h : ofViewParam? e = some p) : p.IsGrounded e := by
  unfold ofViewParam? at h
  split at h
  · next hview =>
    obtain ⟨param, hparam, h⟩ := Option.bind_eq_some_iff.mp h
    obtain ⟨read, hread, h⟩ := Option.bind_eq_some_iff.mp h
    obtain ⟨hknown, hstands⟩ := Marker.of_firstIn? hparam
    obtain ⟨hreads, hcalled⟩ := Marker.of_firstIn? hread
    cases h
    exact ⟨ObjectKind.label_mem _, List.infix_append _ _ _,
      .viewParam hknown (inView_iff.mp hview) hstands hreads hcalled⟩
  · cases h

/-- Whichever tier fires, it cites what is there. -/
theorem isGrounded_of_detect? (h : detect? e = some p) : p.IsGrounded e := by
  simp only [detect?, Option.orElse_eq_some] at h
  rcases h with h | ⟨-, h | ⟨-, h | ⟨-, h | ⟨-, h⟩⟩⟩⟩
  · exact isGrounded_of_ofPath? h
  · exact isGrounded_of_ofBulkCall? h
  · exact isGrounded_of_ofPreload? h
  · exact isGrounded_of_ofHook? h
  · exact isGrounded_of_ofViewParam? h

theorem detect?_isSome_of_cited {signal : PrimingSignal} {marker : Bytes} {kind : ObjectKind}
    (h : Cited e signal marker kind) : (detect? e).isSome = true := by
  have hasAny : ∀ {κ : Type} {m : Marker κ} {markers : List (Marker κ)} {text : Bytes},
      m ∈ markers → m.text <:+: text → HasAny (markers.map (·.text)) text :=
    fun hknown hstands => ⟨_, List.mem_map_of_mem hknown, hstands⟩
  rw [detect?_isSome]
  cases h with
  | path hknown hview hstands => exact .screen hview (hasAny hknown hstands)
  | priming hknown hstands => exact .bulkCall (hasAny hknown hstands)
  | preload hknown hstands => exact .preload (hasAny hknown hstands)
  | hook hknown hregistered =>
    obtain ⟨hook, hmem, rfl, -⟩ := Hook.exists_of_kindOf? hknown
    exact .hook hook hmem hregistered.hasAny
  | viewParam hknown hview hstands hreads hcalled =>
    exact .viewParam hview (hasAny hknown hstands) (hasAny hreads hcalled)

end CachePriming

/-! ## Shapes of loops -/

namespace LoopShape

/-- A shape whose basis is there: a marker of many objects, the fields and the
name of one object, or the screen of one object where the text is short. -/
structure IsGrounded (e : Evidence) (shape : LoopShape) : Prop where
  exclusive : ¬ (shape.isSingle = true ∧ shape.isMany = true)
  many : shape.isMany = true ↔ ∃ marker ∈ manyMarkers, marker <:+: e.compact
  manyBasis : shape.isMany = true → shape.basis ∈ manyMarkers ∧ shape.basis <:+: e.compact
  singleBasis : shape.isSingle = true →
    (∃ field ∈ fieldMarkers, ∃ id ∈ stableIds, shape.basis = field ++ " with " ++ id ∧
      field <:+: e.compact ∧ id <:+: e.compact) ∨
    (∃ fragment ∈ singlePaths, shape.basis = "path " ++ fragment ∧ fragment <:+: e.path ∧
      HasAny CachePriming.viewMarkers e.path ∧ e.compact.length < 40)

variable {e : Evidence} {basis : Bytes}

theorem of_fieldLoop? (h : fieldLoop? e = some basis) :
    ∃ field ∈ fieldMarkers, ∃ id ∈ stableIds, basis = field ++ " with " ++ id ∧
      field <:+: e.compact ∧ id <:+: e.compact := by
  obtain ⟨field, hfield, h⟩ := Option.bind_eq_some_iff.mp h
  obtain ⟨id, hid, h⟩ := Option.bind_eq_some_iff.mp h
  obtain ⟨hfieldKnown, hfieldIn⟩ := of_firstIn? hfield
  obtain ⟨hidKnown, hidIn⟩ := of_firstIn? hid
  cases h
  exact ⟨field, hfieldKnown, id, hidKnown, rfl, hfieldIn, hidIn⟩

theorem of_singleScreen? (h : singleScreen? e = some basis) :
    ∃ fragment ∈ singlePaths, basis = "path " ++ fragment ∧ fragment <:+: e.path ∧
      HasAny CachePriming.viewMarkers e.path ∧ e.compact.length < 40 := by
  unfold singleScreen? at h
  split at h
  · next hscreen =>
    obtain ⟨hshort, hview⟩ := Bool.and_eq_true_iff.mp hscreen
    obtain ⟨fragment, hfragment, rfl⟩ := Option.map_eq_some_iff.mp h
    obtain ⟨hknown, hin⟩ := of_firstIn? hfragment
    exact ⟨fragment, hknown, rfl, hin, CachePriming.inView_iff.mp hview,
      of_decide_eq_true hshort⟩
  · cases h

theorem isGrounded_of (e : Evidence) : (LoopShape.of e).IsGrounded e := by
  have hmany := manyMarker?_isSome (e := e)
  unfold LoopShape.of
  cases hmarker : manyMarker? e with
  | some marker =>
    obtain ⟨hknown, hin⟩ := of_firstIn? hmarker
    refine ⟨by simp [isSingle], ⟨fun _ => ⟨marker, hknown, hin⟩, fun _ => rfl⟩, ?_, ?_⟩
    · exact fun _ => ⟨hknown, hin⟩
    · intro h
      cases h
  | none =>
    rw [hmarker] at hmany
    have hnone : ¬ HasAny manyMarkers e.compact := by simpa using hmany
    cases hbasis : fieldLoop? e <|> singleScreen? e with
    | none =>
      refine ⟨?_, iff_of_false Bool.false_ne_true hnone, ?_, ?_⟩ <;> simp [isSingle, isMany]
    | some basis =>
      refine ⟨?_, iff_of_false Bool.false_ne_true hnone, ?_, fun _ => ?_⟩
      iterate 2 · simp [isMany]
      rcases (Option.orElse_eq_some ..).mp hbasis with h | ⟨-, h⟩
      · exact .inl (of_fieldLoop? h)
      · exact .inr (of_singleScreen? h)

end LoopShape

/-- What is said about warm caches and loops of a finding is there to be seen.
A warm cache is explained by a marker that stands where its signal says, and is
not missed where one stands. The shape of a loop is either single or many, many
just where a marker of many objects stands, and single on a basis that stands
in the text or the path. -/
theorem detect?_cites (f : Finding) :
    (∀ p, CachePriming.detect? (.of f) = some p → p.IsGrounded (.of f)) ∧
    (CachePriming.detect? (.of f) = none →
      ∀ signal marker kind, ¬ CachePriming.Cited (.of f) signal marker kind) ∧
    (LoopShape.of (.of f)).IsGrounded (.of f) := by
  refine ⟨fun p hp => CachePriming.isGrounded_of_detect? hp, ?_, LoopShape.isGrounded_of _⟩
  intro hnone signal marker kind hcited
  have hsome := CachePriming.detect?_isSome_of_cited hcited
  rw [hnone] at hsome
  cases hsome

/-- A callback on a hook whose name starts with that of another hook. -/
def updateHook : Finding where
  id := "n-plus-one-pattern"
  file := "includes/profile.php"
  code := "add_action( \"edit_user_profile_update\", 'save_fields' );"
  context := [⟨4, "foreach ( $fields as $key )"⟩, ⟨5, "update_user_meta( $user_id, $key );"⟩]

theorem detect?_cites_updateHook :
    ∃ p, CachePriming.detect? (.of updateHook) = some p ∧ p.IsGrounded (.of updateHook) ∧
      p.signal = .hook ∧ p.marker = ("edit_user_profile_update" : Bytes) ∧
      (LoopShape.of (.of updateHook)).IsGrounded (.of updateHook) ∧
      (LoopShape.of (.of updateHook)).isSingle = true := by
  have hfires : (CachePriming.detect? (.of updateHook)).map (fun p => (p.signal, p.marker)) =
      some (.hook, ("edit_user_profile_update" : Bytes)) := by decide +kernel
  obtain ⟨p, hp, hcites⟩ := Option.map_eq_some_iff.mp hfires
  obtain ⟨hgrounded, -, hshape⟩ := detect?_cites updateHook
  exact ⟨p, hp, hgrounded p hp, congrArg Prod.fst hcites, congrArg Prod.snd hcites, hshape,
    by decide +kernel⟩

end ScanTriage
