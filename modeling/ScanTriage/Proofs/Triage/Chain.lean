import Mathlib.Data.List.Basic
import ScanTriage.Triage.Catalogue

/-!
# The rule that decides

A chain is decided by its first rule that applies (`Chain.decide_cons`), which
is one of its rules or the fallback (`Chain.deciding_mem`). What holds of the
decision of every rule therefore holds of the chain's (`Chain.decide_of_forall`).
A chain that keeps account of the rules it tries decides as it does without
(`Chain.evaluate_fst`).
-/

namespace ScanTriage

namespace Chain

/-- A rule that applies decides, otherwise the rules after it do. -/
theorem decide_cons {id category : Bytes} {r fallback : Rule} {rules : List Rule}
    {e : Evidence} : Chain.decide ⟨id, category, r :: rules, fallback⟩ e =
      if r.applies e then r.decide e else Chain.decide ⟨id, category, rules, fallback⟩ e := by
  by_cases h : r.applies e = true
  · simp [Chain.decide, Chain.deciding, h]
  · simp [Chain.decide, Chain.deciding, h]

theorem decide_nil {id category : Bytes} {fallback : Rule} {e : Evidence} :
    Chain.decide ⟨id, category, [], fallback⟩ e = fallback.decide e := rfl

theorem deciding_mem (c : Chain) (e : Evidence) : c.deciding e ∈ c.fallback :: c.rules := by
  unfold Chain.deciding
  cases h : c.rules.find? (·.applies e) with
  | none => exact List.mem_cons_self
  | some r => exact List.mem_cons_of_mem _ (List.mem_of_find?_eq_some h)

theorem decide_of_forall {motive : Decision → Prop} {c : Chain} {e : Evidence}
    (h : ∀ r ∈ c.fallback :: c.rules, motive (r.decide e)) : motive (c.decide e) :=
  h _ (c.deciding_mem e)

theorem evaluate_fst (c : Chain) (e : Evidence) : (c.evaluate e).1 = c.decide e := by
  obtain ⟨id, category, rules, fallback⟩ := c
  induction rules with
  | nil => rfl
  | cons r rules ih =>
    rw [decide_cons, ← ih, evaluate, evaluateOf]
    by_cases h : r.applies e = true
    · simp [h]
    · simp [h, evaluate]

/-- The chain of an identifier is one of the catalogue, and its own. -/
theorem mem_of_ofId?_eq_some {id : Bytes} {c : Chain} (h : ofId? id = some c) :
    c ∈ Chain.all ∧ c.id = id :=
  ⟨List.mem_of_find?_eq_some h, by simpa using List.find?_some h⟩

theorem ofId?_eq {id : Bytes} {c : Chain} (hid : id = c.id) (hc : ofId? c.id = some c) :
    ofId? id = some c := by
  rw [hid, hc]

end Chain

namespace Finding

variable {f : Finding}

theorem classify?_of_ofId? {c : Chain} (h : Chain.ofId? f.id = some c) :
    f.classify? = some (c.decide (.of f)) := by
  rw [classify?, h, Option.map_some]

theorem trial_fst (f : Finding) : f.trial.1 = f.classify? := by
  cases h : Chain.ofId? f.id with
  | none => simp [trial, classify?, h]
  | some chain => simp [trial, classify?, h, chain.evaluate_fst]

end Finding

end ScanTriage
