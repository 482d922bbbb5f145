import ScanTriage.Proofs.Text.Search
import ScanTriage.Triage.Rules.Query

/-!
# Bounds of loops

An argument bounds a loop where it stands in front of a value that does not
start with a minus sign (`Rules.Bounds`). The search for such a place goes on
behind every place where the argument stands. It misses none, because no
argument starts again within itself (`Bytes.Unbordered`): its next place in a
text is behind the last one (`Bytes.Unbordered.length_le`).
-/

namespace ScanTriage

/-! ## Parts that cannot overlap -/

namespace Bytes

variable {part text : Bytes}

/-- No proper end of a text is a start of it. -/
def Unbordered (part : Bytes) : Prop := ∀ k < part.length, 0 < k → ¬ part.drop k <+: part

instance : DecidablePred Unbordered := fun part =>
  inferInstanceAs (Decidable (∀ k < part.length, 0 < k → ¬ part.drop k <+: part))

/-- Two places of an unbordered part are as far apart as it is long. -/
theorem Unbordered.length_le (h : Unbordered part) {k : Nat} (hk : 0 < k)
    (hfirst : part <+: text) (hsecond : part <+: text.drop k) : part.length ≤ k := by
  apply Nat.le_of_not_lt
  intro hshort
  obtain ⟨back, rfl⟩ := hfirst
  rw [List.drop_append_of_le_length (Nat.le_of_lt hshort)] at hsecond
  apply h k hshort hk
  apply List.prefix_of_prefix_length_le (List.prefix_append ..) hsecond
  rw [List.length_drop]
  omega

end Bytes

namespace Rules

open Bytes (HasAny Unbordered)

variable {argument text : Bytes}

/-! ## The search -/

/-- The argument stands somewhere in front of a value that is not negative. -/
def Bounds (argument text : Bytes) : Prop :=
  ∃ front value rest, text = front ++ argument ++ value :: rest ∧ value ≠ Bytes.minus

theorem Bounds.append_left (front : Bytes) (h : Bounds argument text) :
    Bounds argument (front ++ text) := by
  obtain ⟨before, value, rest, rfl, hvalue⟩ := h
  exact ⟨front ++ before, value, rest, by simp, hvalue⟩

theorem Bounds.append_right (h : Bounds argument text) (back : Bytes) :
    Bounds argument (text ++ back) := by
  obtain ⟨front, value, rest, rfl, hvalue⟩ := h
  exact ⟨front, value, rest ++ back, by simp, hvalue⟩

/-- Where the argument does not stand in front, the first byte may be passed over. -/
theorem bounds_cons (b : UInt8) (h : ¬ argument <+: b :: text) :
    Bounds argument (b :: text) ↔ Bounds argument text := by
  refine ⟨?_, .append_left [b]⟩
  rintro ⟨front, value, rest, htext, hvalue⟩
  cases front with
  | nil => exact absurd ⟨value :: rest, htext.symm⟩ h
  | cons c front => exact ⟨front, value, rest, (List.cons.inj htext).2, hvalue⟩

/-- Where it stands in front, all of it may be passed over once its value is seen. -/
theorem bounds_append (h : Unbordered argument) :
    Bounds argument (argument ++ text) ↔
      (∃ value ∈ text.head?, value ≠ Bytes.minus) ∨ Bounds argument text := by
  constructor
  · rintro ⟨front, value, rest, htext, hvalue⟩
    by_cases hfront : front = []
    · subst hfront
      have hrest : text = value :: rest := List.append_cancel_left htext
      exact .inl ⟨value, by rw [hrest]; rfl, hvalue⟩
    have hbehind : argument.length ≤ front.length := by
      refine h.length_le (List.length_pos_iff.mpr hfront) (List.prefix_append _ text) ?_
      rw [htext, List.append_assoc, List.drop_left]
      exact List.prefix_append ..
    rw [List.append_assoc] at htext
    obtain ⟨before, rfl⟩ : argument <+: front :=
      List.prefix_of_prefix_length_le ⟨text, htext⟩ (List.prefix_append ..) hbehind
    rw [List.append_assoc] at htext
    refine .inr ⟨before, value, rest, ?_, hvalue⟩
    rw [List.append_cancel_left htext, List.append_assoc]
  · rintro (⟨value, hhead, hvalue⟩ | hbounds)
    · obtain ⟨rest, rfl⟩ : ∃ rest, text = value :: rest := List.head?_eq_some_iff.mp hhead
      exact ⟨[], value, rest, rfl, hvalue⟩
    · exact hbounds.append_left argument

/-- The search finds every place that bounds a loop. -/
theorem givesBoundAfter_iff (h : Unbordered argument) (hne : argument ≠ []) (skip : Nat) :
    givesBoundAfter argument skip text = true ↔ Bounds argument (text.drop skip) := by
  fun_induction givesBoundAfter argument skip text with
  | case1 skip => simp [Bounds]
  | case2 skip b rest ih => exact ih
  | case3 b rest hnone ih =>
    have hnot : ¬ argument <+: b :: rest := by
      rintro ⟨value, hvalue⟩
      rw [Bytes.after?_eq_some.mpr hvalue.symm] at hnone
      cases hnone
    rw [ih, List.drop_zero, List.drop_zero, bounds_cons b hnot]
  | case4 b rest back hsome ih =>
    have htext : b :: rest = argument ++ back := Bytes.after?_eq_some.mp hsome
    have hrest : rest.drop (argument.length - 1) = back := by
      obtain ⟨c, tail, rfl⟩ := List.exists_cons_of_ne_nil hne
      rw [(List.cons.inj htext).2]
      exact List.drop_left
    rw [List.drop_zero, htext, bounds_append h, Bool.or_eq_true, ih, hrest]
    cases back <;> simp

theorem boundArguments_unbordered :
    ∀ argument ∈ boundArguments, argument ≠ [] ∧ Unbordered argument := by decide

theorem givesBound_iff (h : argument ∈ boundArguments) :
    givesBound argument text = true ↔ Bounds argument text := by
  obtain ⟨hne, hunbordered⟩ := boundArguments_unbordered argument h
  exact givesBoundAfter_iff hunbordered hne 0

theorem isBounded_iff {e : Evidence} : isBounded e = true ↔
    HasAny boundingCalls e.compact ∨ ∃ argument ∈ boundArguments, Bounds argument e.compact := by
  rw [isBounded, Bool.or_eq_true, Evidence.compactHasAny, firstIn?_isSome, List.any_eq_true]
  exact or_congr_right (exists_congr fun argument => and_congr_right fun h => givesBound_iff h)

/-- A bound is not hidden by what stands around it. -/
theorem isBounded_around {e : Evidence} (front back : Bytes) (h : isBounded e = true) :
    isBounded { e with compact := front ++ e.compact ++ back } = true := by
  rw [isBounded_iff] at h ⊢
  rcases h with ⟨call, hcall, hin⟩ | ⟨argument, hargument, hbounds⟩
  · exact .inl ⟨call, hcall, hin.trans (List.infix_append ..)⟩
  · exact .inr ⟨argument, hargument, (hbounds.append_left front).append_right back⟩

/-- A text bounds a loop just where it holds a call that does, or an argument in
front of a value that does not start with a minus sign. Whatever stands around
such a text, negative values and an argument at the very end included, does not
hide it. -/
theorem isBounded_exact (e : Evidence) :
    (isBounded e = true ↔
      (∃ call ∈ boundingCalls, call <:+: e.compact) ∨
      ∃ argument ∈ boundArguments, ∃ front value rest,
        e.compact = front ++ argument ++ [value] ++ rest ∧ value ≠ Bytes.minus) ∧
    ∀ front back, isBounded e = true →
      isBounded { e with compact := front ++ e.compact ++ back } = true := by
  refine ⟨?_, fun front back => isBounded_around front back⟩
  simp only [List.append_assoc, List.singleton_append]
  simpa only [HasAny, Bounds, List.append_assoc] using isBounded_iff

def firstUsers : Finding where
  id := "n-plus-one-pattern"
  file := "includes/report.php"
  code := "foreach ( get_users( [ 'number' => 20 ] ) as $user )"

theorem isBounded_exact_firstUsers :
    let around (front back : Bytes) : Evidence :=
      { Evidence.of firstUsers with compact := front ++ (Evidence.of firstUsers).compact ++ back }
    let silent : Evidence :=
      { Evidence.of firstUsers with compact := "'number'=>-1,\"limit\"=>-1,'number'=>" }
    isBounded (.of firstUsers) = true ∧
      isBounded (around "'number'=>-1,\"limit\"=>-1," ",'number'=>-1,'number'=>") = true ∧
      isBounded silent = false := by
  intro around silent
  have hbounded : isBounded (.of firstUsers) = true := by decide +kernel
  exact ⟨hbounded, (isBounded_exact (.of firstUsers)).2 _ _ hbounded, by decide⟩

end Rules

end ScanTriage
