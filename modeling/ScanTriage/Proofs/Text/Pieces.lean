import Mathlib.Data.List.Basic
import ScanTriage.Proofs.Text.Search

/-!
# Texts in pieces

A part that stands in a text made of pieces stands in one of them, or it starts
in one and ends in a later one (`infix_flatten_iff`). The latter cannot be where
every later piece starts with a byte that the part lacks
(`infix_flatten_of_apart`), as a separator does (`infix_join_iff`). Paragraphs
without line ends come back from the text they are joined to
(`paragraphs_join`).
-/

namespace ScanTriage

namespace Bytes

variable {part : Bytes} {pieces : List Bytes}

/-- The part starts in one of the pieces and ends in a later one. -/
def Straddles (part : Bytes) (pieces : List Bytes) : Prop :=
  ∃ before first between last after front back,
    pieces = before ++ first :: (between ++ last :: after) ∧
      part = front ++ between.flatten ++ back ∧ front ≠ [] ∧ front <:+ first ∧
      back ≠ [] ∧ back <+: last

theorem Straddles.cons (piece : Bytes) (h : Straddles part pieces) :
    Straddles part (piece :: pieces) := by
  obtain ⟨before, first, between, last, after, front, back, rfl, h⟩ := h
  exact ⟨piece :: before, first, between, last, after, front, back, rfl, h⟩

theorem Straddles.infix_flatten (h : Straddles part pieces) : part <:+: pieces.flatten := by
  obtain ⟨before, _, between, _, after, front, back, rfl, rfl, -, ⟨a, rfl⟩, -, ⟨b, rfl⟩⟩ := h
  exact ⟨before.flatten ++ a, b ++ after.flatten, by simp⟩

/-- A text at the front of some pieces ends in one of them. -/
theorem ends_of_prefix_flatten (hpart : part ≠ []) (h : part <+: pieces.flatten) :
    ∃ between last after back, pieces = between ++ last :: after ∧
      part = between.flatten ++ back ∧ back ≠ [] ∧ back <+: last := by
  induction pieces generalizing part with
  | nil => exact absurd (List.prefix_nil.mp h) hpart
  | cons piece pieces ih =>
    obtain ⟨rest, hrest⟩ := h
    rw [List.flatten_cons] at hrest
    rcases List.append_eq_append_iff.mp hrest with ⟨more, hpiece, -⟩ | ⟨back, rfl, hback⟩
    · exact ⟨[], piece, pieces, part, rfl, rfl, hpart, ⟨more, hpiece.symm⟩⟩
    by_cases hnil : back = []
    · subst hnil
      rw [List.append_nil] at hpart ⊢
      exact ⟨[], piece, pieces, piece, rfl, rfl, hpart, List.prefix_rfl⟩
    · obtain ⟨between, last, after, back, rfl, rfl, hne, hlast⟩ := ih hnil ⟨rest, hback.symm⟩
      exact ⟨piece :: between, last, after, back, rfl, by simp, hne, hlast⟩

theorem infix_flatten_iff (hpart : part ≠ []) :
    part <:+: pieces.flatten ↔ (∃ p ∈ pieces, part <:+: p) ∨ Straddles part pieces := by
  constructor
  · intro h
    induction pieces with
    | nil => exact absurd (List.infix_nil.mp h) hpart
    | cons piece pieces ih =>
      have hlater : part <:+: pieces.flatten →
          (∃ p ∈ piece :: pieces, part <:+: p) ∨ Straddles part (piece :: pieces) := by
        intro h
        rcases ih h with ⟨p, hp, hin⟩ | hstraddles
        · exact .inl ⟨p, List.mem_cons_of_mem _ hp, hin⟩
        · exact .inr (hstraddles.cons piece)
      rw [List.flatten_cons, List.infix_append_iff] at h
      rcases h with hin | hin | ⟨front, back, rfl, hfront, hback⟩
      · exact .inl ⟨piece, List.mem_cons_self, hin⟩
      · exact hlater hin
      by_cases hf : front = []
      · subst hf
        exact hlater hback.isInfix
      by_cases hb : back = []
      · subst hb
        rw [List.append_nil]
        exact .inl ⟨piece, List.mem_cons_self, hfront.isInfix⟩
      · obtain ⟨between, last, after, back, rfl, rfl, hne, hlast⟩ := ends_of_prefix_flatten hb hback
        exact .inr ⟨[], piece, between, last, after, front, back, rfl,
          (List.append_assoc ..).symm, hf, hfront, hne, hlast⟩
  · rintro (⟨p, hp, hin⟩ | hstraddles)
    · exact hin.trans (List.infix_of_mem_flatten hp)
    · exact hstraddles.infix_flatten

/-- No piece starts with a byte of the part. -/
def Apart (part : Bytes) (pieces : List Bytes) : Prop :=
  ∀ p ∈ pieces, ∀ b ∈ p.head?, b ∉ part

theorem Apart.not_straddles {piece : Bytes} (h : Apart part pieces) :
    ¬ Straddles part (piece :: pieces) := by
  rintro ⟨before, first, between, last, after, front, back, hpieces, rfl, -, -, hne, hlast⟩
  have hmem : last ∈ pieces := by
    cases before with
    | nil =>
      rw [(List.cons.inj hpieces).2]
      simp
    | cons p before =>
      rw [(List.cons.inj hpieces).2]
      simp
  obtain ⟨b, back, rfl⟩ := List.exists_cons_of_ne_nil hne
  obtain ⟨rest, rfl⟩ := hlast
  exact h _ hmem b (by simp) (by simp)

theorem infix_flatten_of_apart {piece : Bytes} (hpart : part ≠ []) (h : Apart part pieces) :
    part <:+: (piece :: pieces).flatten ↔ ∃ p ∈ piece :: pieces, part <:+: p := by
  rw [infix_flatten_iff hpart, or_iff_left h.not_straddles]

/-! ## Joined texts -/

section Join

variable {sep : Bytes} {parts : List Bytes}

theorem join_cons (sep first : Bytes) (parts : List Bytes) :
    join sep (first :: parts) = (first :: parts.map (sep ++ ·)).flatten := by
  induction parts generalizing first with
  | nil => simp [join, List.intercalate_singleton]
  | cons second parts ih =>
    rw [join, List.intercalate_cons_cons, ← join, ih]
    simp

theorem infix_append_of_disjoint (hsep : ∀ b ∈ sep, b ∉ part) (text : Bytes) (hpart : part ≠ []) :
    part <:+: sep ++ text ↔ part <:+: text := by
  refine ⟨fun h => ?_, fun h => h.trans (List.suffix_append ..).isInfix⟩
  obtain ⟨first, rest, rfl⟩ := List.exists_cons_of_ne_nil hpart
  rcases List.infix_append_iff.mp h with hin | hin | ⟨front, back, hpart, hfront, hback⟩
  · exact absurd List.mem_cons_self (hsep first (hin.subset List.mem_cons_self))
  · exact hin
  cases front with
  | nil => exact hpart ▸ hback.isInfix
  | cons b front =>
    refine absurd ?_ (hsep b (hfront.subset List.mem_cons_self))
    simp [hpart]

theorem infix_join_iff (hpart : part ≠ []) (hsep : ∀ b ∈ sep, b ∉ part) (hne : sep ≠ []) :
    part <:+: join sep parts ↔ ∃ p ∈ parts, part <:+: p := by
  cases parts with
  | nil => simp [join, List.infix_nil, hpart]
  | cons first parts =>
    have hapart : Apart part (parts.map (sep ++ ·)) := by
      intro p hp b hb
      obtain ⟨p, -, rfl⟩ := List.mem_map.mp hp
      obtain ⟨c, sep, rfl⟩ := List.exists_cons_of_ne_nil hne
      obtain rfl : c = b := by simpa using hb
      exact hsep c List.mem_cons_self
    rw [join_cons, infix_flatten_of_apart hpart hapart]
    simp [infix_append_of_disjoint hsep _ hpart]

end Join

/-! ## Paragraphs -/

/-- The text between the blank lines of a text. -/
def paragraphs : Bytes → List Bytes
  | [] => [[]]
  | [b] => [[b]]
  | b :: c :: text =>
    if b = newline ∧ c = newline then [] :: paragraphs text
    else (paragraphs (c :: text)).modifyHead (b :: ·)

theorem paragraphs_of_notMem {text : Bytes} (h : newline ∉ text) : paragraphs text = [text] := by
  fun_induction paragraphs text with
  | case1 => rfl
  | case2 b => rfl
  | case3 b c text hb _ => exact absurd (hb.1 ▸ List.mem_cons_self) h
  | case4 b c text hb ih => rw [ih (List.not_mem_of_not_mem_cons h), List.modifyHead_cons]

theorem paragraphs_append_blank {first : Bytes} (h : newline ∉ first) (text : Bytes) :
    paragraphs (first ++ newline :: newline :: text) = first :: paragraphs text := by
  induction first with
  | nil => simp [paragraphs]
  | cons b first ih =>
    obtain ⟨hb, hfirst⟩ := not_or.mp (List.mem_cons.not.mp h)
    have hcut : ∀ t, t ≠ [] → paragraphs (b :: t) = (paragraphs t).modifyHead (b :: ·) := by
      intro t ht
      obtain ⟨c, t, rfl⟩ := List.exists_cons_of_ne_nil ht
      rw [paragraphs, if_neg fun h => hb h.1.symm]
    rw [List.cons_append, hcut _ (by simp), ih hfirst, List.modifyHead_cons]

theorem paragraphs_join {parts : List Bytes} (hne : parts ≠ []) (h : ∀ p ∈ parts, newline ∉ p) :
    paragraphs (join "\n\n" parts) = parts := by
  induction parts with
  | nil => exact absurd rfl hne
  | cons first parts ih =>
    have hfirst := h first List.mem_cons_self
    cases parts with
    | nil => rw [join, List.intercalate_singleton, paragraphs_of_notMem hfirst]
    | cons second parts =>
      have hsep : ("\n\n" : Bytes) = [newline, newline] := by decide
      rw [join, List.intercalate_cons_cons, ← join, hsep, List.append_assoc, List.cons_append,
        List.cons_append, List.nil_append, paragraphs_append_blank hfirst, ← hsep,
        ih (by simp) fun p hp => h p (List.mem_cons_of_mem _ hp)]

end Bytes
end ScanTriage
