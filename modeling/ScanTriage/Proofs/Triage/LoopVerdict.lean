import ScanTriage.Proofs.Triage.Chain
import ScanTriage.Proofs.Triage.LoopBound

/-!
# Verdicts on metadata in loops

Seven signs decide about metadata that is read in a loop (`LoopSign`). Each is
said by what stands in the path and the texts of the evidence
(`LoopSign.Shows`), and the rules test for just that (`LoopSign.isShown_iff`).
The first rule that applies decides, so every verdict comes with the signs
that show and those that do not (`LoopRuling`). What a verdict tells about the
loop follows by cases (`classify?_metadataInLoop`).
-/

namespace ScanTriage

open Bytes (HasAny)

/-! ## Warm caches -/

namespace CachePriming

/-- The ways in which a metadata cache is seen to be warm. -/
inductive IsWarm (e : Evidence) : Prop
  | screen (view : HasAny viewMarkers e.path) (name : HasAny (pathFragments.map (·.text)) e.path)
  | bulkCall (call : HasAny (primingCalls.map (·.text)) e.compact)
  | preload (object : HasAny (preloadMarkers.map (·.text)) e.compact)
  | hook (hook : Hook) (known : hook ∈ Hook.all)
    (registered : HasAny ["add_action('" ++ hook.name ++ "'", "add_action(\"" ++ hook.name ++ "\""]
      e.compact)
  | viewParam (view : HasAny viewMarkers e.path)
    (param : HasAny (boundParams.map (·.text)) e.compact)
    (read : HasAny (metaReads.map (·.text)) e.compact)

variable {e : Evidence}

theorem inView_iff : inView e = true ↔ HasAny viewMarkers e.path := firstIn?_isSome

theorem ofPath?_isSome : (ofPath? e).isSome = true ↔
    HasAny viewMarkers e.path ∧ HasAny (pathFragments.map (·.text)) e.path := by
  rw [← inView_iff, ← Marker.firstIn?_isSome]
  cases h : inView e <;> simp [ofPath?, h]

theorem ofBulkCall?_isSome : (ofBulkCall? e).isSome = true ↔
    HasAny (primingCalls.map (·.text)) e.compact := by
  rw [← Marker.firstIn?_isSome, ofBulkCall?, Option.isSome_map]

theorem ofPreload?_isSome : (ofPreload? e).isSome = true ↔
    HasAny (preloadMarkers.map (·.text)) e.compact := by
  rw [← Marker.firstIn?_isSome, ofPreload?, Option.isSome_map]

theorem ofHook?_isSome : (ofHook? e).isSome = true ↔ ∃ hook ∈ Hook.all,
    HasAny ["add_action('" ++ hook.name ++ "'", "add_action(\"" ++ hook.name ++ "\""] e.compact := by
  simp [ofHook?, Hook.isRegisteredIn, HasAny, Bytes.occurs_iff]

theorem ofViewParam?_isSome : (ofViewParam? e).isSome = true ↔ HasAny viewMarkers e.path ∧
    HasAny (boundParams.map (·.text)) e.compact ∧ HasAny (metaReads.map (·.text)) e.compact := by
  rw [← inView_iff, ← Marker.firstIn?_isSome, ← Marker.firstIn?_isSome]
  cases h : inView e <;> cases hparam : Marker.firstIn? e.compact boundParams <;>
    cases hread : Marker.firstIn? e.compact metaReads <;> simp [ofViewParam?, h, hparam, hread]

theorem detect?_isSome : (detect? e).isSome = true ↔ IsWarm e := by
  have hor : ∀ {a b : Option CachePriming}, (a <|> b).isSome = true ↔
      a.isSome = true ∨ b.isSome = true := by
    intro a b
    cases a <;> simp
  rw [detect?, hor, hor, hor, hor, ofPath?_isSome, ofBulkCall?_isSome, ofPreload?_isSome,
    ofHook?_isSome, ofViewParam?_isSome]
  constructor
  · rintro (⟨hview, hname⟩ | hcall | hobject | ⟨hook, hknown, hregistered⟩ | ⟨hview, hparam, hread⟩)
    · exact .screen hview hname
    · exact .bulkCall hcall
    · exact .preload hobject
    · exact .hook hook hknown hregistered
    · exact .viewParam hview hparam hread
  · intro h
    cases h with
    | screen hview hname => exact .inl ⟨hview, hname⟩
    | bulkCall hcall => exact .inr (.inl hcall)
    | preload hobject => exact .inr (.inr (.inl hobject))
    | hook hook hknown hregistered => exact .inr (.inr (.inr (.inl ⟨hook, hknown, hregistered⟩)))
    | viewParam hview hparam hread => exact .inr (.inr (.inr (.inr ⟨hview, hparam, hread⟩)))

end CachePriming

/-! ## Loops over one object -/

namespace LoopShape

variable {e : Evidence}

theorem manyMarker?_isSome : (manyMarker? e).isSome = true ↔ HasAny manyMarkers e.compact :=
  firstIn?_isSome

theorem fieldLoop?_isSome : (fieldLoop? e).isSome = true ↔
    HasAny fieldMarkers e.compact ∧ HasAny stableIds e.compact := by
  rw [← firstIn?_isSome, ← firstIn?_isSome]
  cases hfield : firstIn? e.compact fieldMarkers <;> cases hid : firstIn? e.compact stableIds <;>
    simp [fieldLoop?, hfield, hid]

theorem singleScreen?_isSome : (singleScreen? e).isSome = true ↔
    e.compact.length < shortText ∧ HasAny CachePriming.viewMarkers e.path ∧
      HasAny singlePaths e.path := by
  rw [← CachePriming.inView_iff, ← firstIn?_isSome, ← and_assoc]
  by_cases h : e.compact.length < shortText ∧ CachePriming.inView e = true
  · simp [singleScreen?, h]
  · simp [singleScreen?, h]

/-- A loop over many objects is never taken for one over a single object. -/
theorem isSingle_iff : (LoopShape.of e).isSingle = true ↔ ¬ HasAny manyMarkers e.compact ∧
    (HasAny fieldMarkers e.compact ∧ HasAny stableIds e.compact ∨
      e.compact.length < shortText ∧ HasAny CachePriming.viewMarkers e.path ∧
        HasAny singlePaths e.path) := by
  rw [← manyMarker?_isSome, ← fieldLoop?_isSome, ← singleScreen?_isSome]
  cases hmany : manyMarker? e <;> cases hfield : fieldLoop? e <;>
    cases hscreen : singleScreen? e <;> simp [LoopShape.of, hmany, hfield, hscreen, isSingle]

end LoopShape

/-! ## Signs -/

/-- What speaks for or against a query in each round of a loop. -/
inductive LoopSign where
  | warmCache
  | singleObject
  | cacheCall
  | lowFrequency
  | bound
  | adminOnly
  | manyObjects

namespace LoopSign

open Rules

variable {e : Evidence}

/-- What stands in the evidence where a sign shows. -/
def Shows (e : Evidence) : LoopSign → Prop
  | warmCache => CachePriming.IsWarm e
  | singleObject =>
    ¬ HasAny LoopShape.manyMarkers e.compact ∧
      (HasAny LoopShape.fieldMarkers e.compact ∧ HasAny LoopShape.stableIds e.compact ∨
        e.compact.length < LoopShape.shortText ∧ HasAny CachePriming.viewMarkers e.path ∧
          HasAny LoopShape.singlePaths e.path)
  | cacheCall => HasAny cacheCalls e.text
  | lowFrequency => HasAny lowFrequencyPaths e.path ∨ ("wp_mail(" : Bytes) <:+: e.text
  | bound =>
    HasAny boundingCalls e.compact ∨ ∃ argument ∈ boundArguments, ∃ front value rest,
      e.compact = front ++ argument ++ value :: rest ∧ value ≠ Bytes.minus
  | adminOnly =>
    ¬ ("user-admin" : Bytes) <:+: e.path ∧
      (("/admin/" : Bytes) <:+: e.path ∨ ("is_admin()" : Bytes) <:+: e.text)
  | manyObjects => HasAny LoopShape.manyMarkers e.compact

def isShown (e : Evidence) : LoopSign → Bool
  | warmCache => isPrimed e
  | singleObject => isSingleLoop e
  | cacheCall => isCached e
  | lowFrequency => isLowFrequency e
  | bound => isBounded e
  | adminOnly => isAdminOnly e
  | manyObjects => (LoopShape.manyMarker? e).isSome

theorem isShown_iff {s : LoopSign} : s.isShown e = true ↔ s.Shows e := by
  cases s with
  | warmCache => exact CachePriming.detect?_isSome
  | singleObject => exact LoopShape.isSingle_iff
  | cacheCall => exact firstIn?_isSome
  | lowFrequency =>
    simp [isShown, Shows, isLowFrequency, Evidence.pathHasAny, Evidence.textHas, firstIn?_isSome,
      Bytes.occurs_iff]
  | bound => exact isBounded_iff
  | adminOnly =>
    simp [isShown, Shows, isAdminOnly, Evidence.pathHasAny, Evidence.textHas, firstIn?,
      Bytes.occurs_iff]
  | manyObjects => exact LoopShape.manyMarker?_isSome

end LoopSign

/-! ## Rulings -/

open LoopSign (Shows)

/-- Classification, confidence and rule of a verdict, with the signs that led
past the earlier rules. -/
inductive LoopRuling (e : Evidence) : Classification → Confidence → Bytes → Prop
  | primedSingle (warm : Shows e .warmCache) (single : Shows e .singleObject) :
    LoopRuling e .falsePositive .high "primed-single-object"
  | primedUnclear (warm : Shows e .warmCache) (single : ¬ Shows e .singleObject) :
    LoopRuling e .needsReview .medium "primed-loop-shape-unclear"
  | single (warm : ¬ Shows e .warmCache) (single : Shows e .singleObject) :
    LoopRuling e .falsePositive .medium "single-object-loop"
  | cached (warm : ¬ Shows e .warmCache) (single : ¬ Shows e .singleObject)
    (cached : Shows e .cacheCall) : LoopRuling e .falsePositive .medium "explicit-caching"
  | lowFrequency (warm : ¬ Shows e .warmCache) (single : ¬ Shows e .singleObject)
    (cached : ¬ Shows e .cacheCall) (rare : Shows e .lowFrequency) :
    LoopRuling e .needsReview .medium "low-frequency-context"
  | bounded (warm : ¬ Shows e .warmCache) (single : ¬ Shows e .singleObject)
    (cached : ¬ Shows e .cacheCall) (rare : ¬ Shows e .lowFrequency) (bound : Shows e .bound) :
    LoopRuling e .needsReview .medium "bounded-loop"
  | adminOnly (warm : ¬ Shows e .warmCache) (single : ¬ Shows e .singleObject)
    (cached : ¬ Shows e .cacheCall) (rare : ¬ Shows e .lowFrequency) (bound : ¬ Shows e .bound)
    (admin : Shows e .adminOnly) : LoopRuling e .needsReview .medium "admin-only-context"
  | many (warm : ¬ Shows e .warmCache) (single : ¬ Shows e .singleObject)
    (cached : ¬ Shows e .cacheCall) (rare : ¬ Shows e .lowFrequency) (bound : ¬ Shows e .bound)
    (admin : ¬ Shows e .adminOnly) (many : Shows e .manyObjects) :
    LoopRuling e .confirmed .high "multi-object-loop"
  | unknown (none : ∀ s, ¬ Shows e s) : LoopRuling e .needsReview .low "loop-shape-unknown"

theorem loopRuling_decide (e : Evidence) :
    LoopRuling e (Rules.metadataInLoop.decide e).classification
      (Rules.metadataInLoop.decide e).confidence (Rules.metadataInLoop.decide e).rule := by
  have hshows : ∀ {s}, LoopSign.isShown e s = true → Shows e s := LoopSign.isShown_iff.mp
  have hhides : ∀ {s}, ¬ LoopSign.isShown e s = true → ¬ Shows e s := mt LoopSign.isShown_iff.mpr
  unfold Rules.metadataInLoop
  rw [Chain.decide_cons]
  split
  · next h =>
    rw [Bool.and_eq_true] at h
    exact .primedSingle (hshows h.1) (hshows h.2)
  next hboth =>
  rw [Chain.decide_cons]
  split
  · next hwarm =>
    rw [Bool.and_eq_true, not_and] at hboth
    exact .primedUnclear (hshows hwarm) (hhides (hboth hwarm))
  next hwarm =>
  rw [Chain.decide_cons]
  split
  · next hsingle => exact .single (hhides hwarm) (hshows hsingle)
  next hsingle =>
  rw [Chain.decide_cons]
  split
  · next hcached => exact .cached (hhides hwarm) (hhides hsingle) (hshows hcached)
  next hcached =>
  rw [Chain.decide_cons]
  split
  · next hrare =>
    exact .lowFrequency (hhides hwarm) (hhides hsingle) (hhides hcached) (hshows hrare)
  next hrare =>
  rw [Chain.decide_cons]
  split
  · next hbound =>
    exact .bounded (hhides hwarm) (hhides hsingle) (hhides hcached) (hhides hrare) (hshows hbound)
  next hbound =>
  rw [Chain.decide_cons]
  split
  · next hadmin =>
    exact .adminOnly (hhides hwarm) (hhides hsingle) (hhides hcached) (hhides hrare)
      (hhides hbound) (hshows hadmin)
  next hadmin =>
  rw [Chain.decide_cons]
  split
  · next hmany =>
    exact .many (hhides hwarm) (hhides hsingle) (hhides hcached) (hhides hrare) (hhides hbound)
      (hhides hadmin) (hshows hmany)
  next hmany =>
  refine .unknown fun s => ?_
  cases s with
  | warmCache => exact hhides hwarm
  | singleObject => exact hhides hsingle
  | cacheCall => exact hhides hcached
  | lowFrequency => exact hhides hrare
  | bound => exact hhides hbound
  | adminOnly => exact hhides hadmin
  | manyObjects => exact hhides hmany

/-! ## Verdicts -/

/-- What a decision on metadata in a loop tells about the evidence. -/
structure LoopVerdict (e : Evidence) (d : Decision) : Prop where
  /-- A loop over many objects is confirmed unless something keeps the queries
  down or makes them rare. -/
  confirmed : d.classification = .confirmed ↔ Shows e .manyObjects ∧ ¬ Shows e .warmCache ∧
    ¬ Shows e .cacheCall ∧ ¬ Shows e .lowFrequency ∧ ¬ Shows e .bound ∧ ¬ Shows e .adminOnly
  /-- Such a loop is cleared by a cache call only. -/
  cleared : Shows e .manyObjects → d.classification = .falsePositive →
    d.rule = ("explicit-caching" : Bytes)
  certain : d.classification = .falsePositive ∧ d.confidence = .high ↔
    Shows e .warmCache ∧ Shows e .singleObject
  exclusive : Shows e .singleObject → ∀ m ∈ LoopShape.manyMarkers, ¬ m <:+: e.compact
  low : d.confidence = .low ↔ ∀ s, ¬ Shows e s

/-- The sign of a single object rules out that of many. -/
theorem LoopSign.not_manyObjects {e : Evidence} (h : Shows e .singleObject) :
    ¬ Shows e .manyObjects := h.1

theorem LoopRuling.verdict {e : Evidence} {d : Decision}
    (h : LoopRuling e d.classification d.confidence d.rule) : LoopVerdict e d := by
  obtain ⟨⟨classification, confidence, rationale⟩, rule⟩ := d
  have hexclusive : Shows e .singleObject → ¬ Shows e .manyObjects := LoopSign.not_manyObjects
  refine ⟨?_, ?_, ?_, fun hsingle m hm hin => hexclusive hsingle ⟨m, hm, hin⟩, ?_⟩
  · cases h <;> simp_all
  · intro hmany hfalse
    cases h with
    | primedSingle _ hsingle => exact absurd hmany (hexclusive hsingle)
    | single _ hsingle => exact absurd hmany (hexclusive hsingle)
    | cached => rfl
    | _ => cases hfalse
  · cases h <;> simp_all
  · cases h <;> simp_all <;> exact ⟨_, ‹Shows e _›⟩

theorem classify?_metadataInLoop (f : Finding) (hid : f.id = ("n-plus-one-pattern" : Bytes)) :
    ∃ d, f.classify? = some d ∧ LoopVerdict (Evidence.of f) d := by
  have hchain : Chain.ofId? f.id = some Rules.metadataInLoop := by
    rw [hid]
    rfl
  refine ⟨Rules.metadataInLoop.decide (.of f), ?_, (loopRuling_decide _).verdict⟩
  rw [Finding.classify?, hchain, Option.map_some]

/-- A loop over users, spaced as the markers are not, that reads metadata of each. -/
def usersLoop : Finding where
  id := "n-plus-one-pattern"
  file := "includes\\report.php"
  code := "  foreach ( $users as $user ) \x7b"
  context := [⟨12, "get_user_meta( $user->ID, 'city' );"⟩, ⟨0, "'number' => -1,"⟩]

theorem classify?_metadataInLoop_users :
    usersLoop.id = ("n-plus-one-pattern" : Bytes) ∧ Shows (Evidence.of usersLoop) .manyObjects ∧
      ∃ d, usersLoop.classify? = some d ∧ LoopVerdict (Evidence.of usersLoop) d ∧
        d.classification = .confirmed := by
  have hmany : Shows (Evidence.of usersLoop) .manyObjects :=
    LoopSign.isShown_iff.mp (by decide +kernel)
  have hconfirmed : usersLoop.classify?.map (·.classification) = some .confirmed := by
    decide +kernel
  obtain ⟨d, hd, hverdict⟩ := classify?_metadataInLoop usersLoop rfl
  refine ⟨rfl, hmany, d, hd, hverdict, ?_⟩
  rw [hd] at hconfirmed
  exact Option.some.inj hconfirmed

end ScanTriage
