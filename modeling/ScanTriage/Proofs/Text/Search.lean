import Mathlib.Data.List.TakeDrop
import Mathlib.Logic.Basic
import ScanTriage.Heuristics.CachePriming

/-!
# Searching texts

`Bytes.occurs` finds a part wherever it stands in a text (`occurs_iff`), so a
search for the first of some markers succeeds if one of them stands there
(`firstIn?_isSome`). A text is cut at the first separator (`cut?_eq_some_iff`).
-/

namespace ScanTriage

namespace Bytes

variable {part text front rest : Bytes}

theorem occurs_iff : occurs part text = true ↔ part <:+: text := by
  induction text with
  | nil => simp [occurs]
  | cons b text ih =>
    rw [occurs, Bool.or_eq_true, List.isPrefixOf_iff_prefix, ih, List.infix_cons_iff]

theorem after?_eq_some : after? front text = some rest ↔ text = front ++ rest := by
  induction front generalizing text with
  | nil => simp [after?]
  | cons a front ih =>
    cases text with
    | nil => simp [after?]
    | cons b text =>
      by_cases hab : a = b
      · simp [after?, hab, ih]
      · simp [after?, hab, Ne.symm hab]

theorem cut?_eq_some_iff {sep : UInt8} {text front back : Bytes} :
    cut? sep text = some (front, back) ↔ text = front ++ sep :: back ∧ sep ∉ front := by
  rw [cut?, List.span_eq_takeWhile_dropWhile]
  constructor
  · intro h
    split at h
    · cases h
    · next front' b back' hspan =>
      obtain ⟨rfl, hback⟩ := Prod.mk.inj hspan
      cases h
      have hall : ∀ c ∈ text.takeWhile (· != sep), (c != sep) = true :=
        List.all_eq_true.mp List.all_takeWhile
      have hb : b = sep := by
        have hfirst := List.head?_dropWhile_not (· != sep) text
        simpa [hback] using hfirst
      refine ⟨?_, fun hmem => absurd (hall sep hmem) (by simp)⟩
      conv_lhs => rw [← List.takeWhile_append_dropWhile (p := (· != sep)) (l := text), hback, hb]
  · rintro ⟨rfl, hfront⟩
    have hall : ∀ c ∈ front, (c != sep) = true := fun c hc => by
      rw [bne_iff_ne]
      rintro rfl
      exact hfront hc
    rw [List.takeWhile_append_of_pos hall, List.dropWhile_append_of_pos hall]
    simp

def HasAny (markers : List Bytes) (text : Bytes) : Prop := ∃ m ∈ markers, m <:+: text

end Bytes

open Bytes (HasAny)

variable {text : Bytes}

theorem firstIn?_isSome {markers : List Bytes} :
    (firstIn? text markers).isSome = true ↔ HasAny markers text := by
  simp [firstIn?, HasAny, Bytes.occurs_iff]

theorem Marker.firstIn?_isSome {κ : Type} {markers : List (Marker κ)} :
    (Marker.firstIn? text markers).isSome = true ↔ HasAny (markers.map (·.text)) text := by
  simp [Marker.firstIn?, HasAny, Bytes.occurs_iff]

end ScanTriage
