import ScanTriage.Proofs.Triage.Chain

/-!
# Verdicts on superglobals

Once the scanner has answered one of its two questions, the first four rules
cover every combination of answers, so nothing but the answers decides
(`superglobals_decide_of_known`). A verdict is then read off a table
(`FlagVerdict`). Without any answer the text is looked at, which never confirms
(`superglobals_decide_of_unknown`).
-/

namespace ScanTriage

/-- Confirmed above needing review above cleared above anything else. -/
def Classification.severity : Classification → Nat
  | confirmed => 3
  | needsReview => 2
  | falsePositive => 1
  | other .. => 0

namespace Rules

variable {e : Evidence}

theorem flagsKnown_iff : flagsKnown e = true ↔
    e.finding.guarded ≠ .unknown ∨ e.finding.sanitized ≠ .unknown := by
  unfold flagsKnown
  cases e.finding.guarded <;> cases e.finding.sanitized <;> simp [Flag.isKnown]

/-- The decision on a finding of which only the scanner's answers are there. -/
def flagDecision (guarded sanitized : Flag) : Decision :=
  superglobals.decide (.of { guarded := guarded, sanitized := sanitized })

/-- An answer to one of the questions settles the matter, whatever else the
evidence holds. -/
theorem superglobals_decide_of_known (h : flagsKnown e = true) :
    superglobals.decide e = flagDecision e.finding.guarded e.finding.sanitized := by
  obtain ⟨⟨_, _, _, _, _, _, guarded, sanitized⟩, _, _, _, _, _, _⟩ := e
  -- With both flags at hand the search for a rule ends before the text is read.
  cases guarded <;> cases sanitized
  case unknown.unknown => cases h
  all_goals rfl

/-- The rules on the text clear or ask for a review. -/
theorem superglobals_decide_of_unknown (h : flagsKnown e = false) :
    (superglobals.decide e).classification ≠ .confirmed := by
  have hare : ∀ guarded sanitized, flagsAre guarded sanitized e = false := by
    simp [flagsAre, h]
  unfold superglobals
  iterate 3 rw [Chain.decide_cons, Rule.fixed, if_neg (by simp [hare])]
  rw [Chain.decide_cons, Rule.fixed, if_neg (by simp [h])]
  refine Chain.decide_of_forall (motive := (·.classification ≠ .confirmed)) ?_
  simp only [List.forall_mem_cons]
  refine ⟨?_, ?_, ?_, ?_, ?_, List.forall_mem_nil _⟩
  all_goals
    intro hconfirmed
    cases hconfirmed

end Rules

/-! ## The table -/

/-- Classification and confidence by whether the write is known to be guarded
and the value known to be sanitized. -/
def flagTable : (guarded sanitized : Bool) → Classification × Confidence
  | true, true => (.falsePositive, .high)
  | false, false => (.confirmed, .high)
  | _, _ => (.needsReview, .medium)

/-- A yes more never makes it worse. -/
theorem severity_flagTable_le {guarded guarded' sanitized sanitized' : Bool}
    (hguarded : guarded ≤ guarded') (hsanitized : sanitized ≤ sanitized') :
    (flagTable guarded' sanitized').1.severity ≤ (flagTable guarded sanitized).1.severity := by
  revert guarded guarded' sanitized sanitized'
  decide

theorem flagDecision_eq_flagTable {guarded sanitized : Flag}
    (h : guarded ≠ .unknown ∨ sanitized ≠ .unknown) :
    ((Rules.flagDecision guarded sanitized).classification,
      (Rules.flagDecision guarded sanitized).confidence) =
      flagTable guarded.isYes sanitized.isYes := by
  cases guarded <;> cases sanitized
  case unknown.unknown => simp at h
  all_goals rfl

/-- What a decision on a superglobal tells about the scanner's answers. -/
structure FlagVerdict (f : Finding) (d : Decision) : Prop where
  /-- Every finding with these answers is decided alike. -/
  decides : ∀ g : Finding, g.id = f.id → g.guarded = f.guarded → g.sanitized = f.sanitized →
    g.classify? = some d
  confirmed : d.classification = .confirmed ∧ d.confidence = .high ↔
    f.guarded ≠ .yes ∧ f.sanitized ≠ .yes
  cleared : d.classification = .falsePositive ∧ d.confidence = .high ↔
    f.guarded = .yes ∧ f.sanitized = .yes
  review : d.classification = .needsReview ∧ d.confidence = .medium ↔
    (f.guarded = .yes ∧ f.sanitized ≠ .yes ∨ f.guarded ≠ .yes ∧ f.sanitized = .yes)
  /-- A finding for which more is answered with yes is decided no more
  severely. -/
  monotone : ∀ g : Finding, g.id = f.id → (g.guarded = f.guarded ∨ g.guarded = .yes) →
    (g.sanitized = f.sanitized ∨ g.sanitized = .yes) →
    ∃ d', g.classify? = some d' ∧ d'.classification.severity ≤ d.classification.severity

theorem Flag.isYes_le {a b : Flag} (h : b = a ∨ b = .yes) : a.isYes ≤ b.isYes := by
  rcases h with rfl | rfl
  · exact Bool.le_refl _
  · exact Bool.le_true _

theorem Finding.classify?_of_known {f : Finding} (hid : f.id = ("spo-002-superglobals" : Bytes))
    (hknown : f.guarded ≠ .unknown ∨ f.sanitized ≠ .unknown) :
    f.classify? = some (Rules.flagDecision f.guarded f.sanitized) := by
  have hchain : Chain.ofId? f.id = some Rules.superglobals := Chain.ofId?_eq hid rfl
  rw [Finding.classify?_of_ofId? hchain,
    Rules.superglobals_decide_of_known (Rules.flagsKnown_iff.mpr hknown)]
  rfl

theorem flagVerdict_flagDecision {f : Finding} (hid : f.id = ("spo-002-superglobals" : Bytes))
    (hknown : f.guarded ≠ .unknown ∨ f.sanitized ≠ .unknown) :
    FlagVerdict f (Rules.flagDecision f.guarded f.sanitized) := by
  have htable := flagDecision_eq_flagTable hknown
  refine ⟨?_, ?_, ?_, ?_, ?_⟩
  · intro g hg hguarded hsanitized
    rw [← hguarded, ← hsanitized]
    rw [← hguarded, ← hsanitized] at hknown
    exact Finding.classify?_of_known (hg.trans hid) hknown
  iterate 3
    · rw [← Prod.mk.injEq, htable]
      cases f.guarded <;> cases f.sanitized <;> simp [flagTable, Flag.isYes]
  · intro g hg hguarded hsanitized
    have hknown' : g.guarded ≠ .unknown ∨ g.sanitized ≠ .unknown := by
      rcases hguarded with h | h <;> rcases hsanitized with h' | h' <;> simp [h, h', hknown]
    refine ⟨_, Finding.classify?_of_known (hg.trans hid) hknown', ?_⟩
    have hle := severity_flagTable_le (Flag.isYes_le hguarded) (Flag.isYes_le hsanitized)
    rwa [← flagDecision_eq_flagTable hknown, ← flagDecision_eq_flagTable hknown'] at hle

/-- One answer of the scanner is enough to decide about a superglobal. Without
any, nothing that the text or the path shows confirms the finding. -/
theorem classify?_superglobals (f : Finding) (hid : f.id = ("spo-002-superglobals" : Bytes)) :
    ∃ d, f.classify? = some d ∧
      (f.guarded ≠ .unknown ∨ f.sanitized ≠ .unknown → FlagVerdict f d) ∧
      (f.guarded = .unknown → f.sanitized = .unknown → d.classification ≠ .confirmed) := by
  have hchain : Chain.ofId? f.id = some Rules.superglobals := Chain.ofId?_eq hid rfl
  refine ⟨_, Finding.classify?_of_ofId? hchain, fun hknown => ?_, fun hguarded hsanitized => ?_⟩
  · have hd := Finding.classify?_of_known hid hknown
    rw [Finding.classify?_of_ofId? hchain, Option.some.injEq] at hd
    rw [hd]
    exact flagVerdict_flagDecision hid hknown
  · refine Rules.superglobals_decide_of_unknown (Bool.eq_false_iff.mpr ?_)
    rw [ne_eq, Rules.flagsKnown_iff, not_or, not_not, not_not]
    exact ⟨hguarded, hsanitized⟩

/-- A docblock in other people's code that the scanner found unguarded. -/
def unguardedDocblock : Finding where
  id := "spo-002-superglobals"
  file := "vendor\\forms\\post.php"
  message := " Direct superglobal access"
  code := "\t* $_REQUEST['id'] after verify_request_nonce()"
  guarded := .no

theorem classify?_superglobals_docblock :
    unguardedDocblock.id = ("spo-002-superglobals" : Bytes) ∧ unguardedDocblock.guarded ≠ .unknown ∧
      ∃ d, unguardedDocblock.classify? = some d ∧ FlagVerdict unguardedDocblock d ∧
        d.classification = .confirmed := by
  obtain ⟨d, hd, hknown, -⟩ := classify?_superglobals unguardedDocblock rfl
  have hverdict : FlagVerdict unguardedDocblock d := hknown (.inl (by decide))
  exact ⟨rfl, by decide, d, hd, hverdict, (hverdict.confirmed.mpr (by decide)).1⟩

end ScanTriage
