import Mathlib.Data.List.TakeWhile
import ScanTriage.Proofs.Text.Utf8
import ScanTriage.Text.Space

/-!
# Trimming

White space at the end of a text makes no difference to the text without it
(`trim_append_space`), nor does a blank text in front of it
(`trim_append_of_trim_eq_nil`). A text that starts and ends with other ASCII
characters is trimmed already (`trim_enclosed`).
-/

namespace ScanTriage

namespace Text

open Utf8 (decode)

/-- A blank of one byte. -/
def IsSpaceByte (b : UInt8) : Prop := b.toNat < 0x80 ∧ isSpace b.toNat = true

theorem decode_append_singleton {b : UInt8} (hb : b.toNat < 0x80) (s : Bytes) :
    decode (s ++ [b]) = decode s ++ [.char b.toNat] := by
  rw [Utf8.decode_append_ascii hb, Utf8.decode_cons, Utf8.lead_one hb]
  rfl

/-- A blank at the end does not matter. -/
theorem trim_append_space {b : UInt8} (hb : IsSpaceByte b) (s : Bytes) :
    trim (s ++ [b]) = trim s := by
  have hspace : Rune.isSpace (.char b.toNat) = true := hb.2
  unfold trim
  rw [decode_append_singleton hb.1]
  by_cases hall : ∀ r ∈ decode s, Rune.isSpace r = true
  · have hfront : (decode s).dropWhile Rune.isSpace = [] := List.dropWhile_eq_nil_iff.mpr hall
    rw [List.dropWhile_append_of_pos hall, hfront]
    simp [hspace]
  · have hfront : (decode s).dropWhile Rune.isSpace ≠ [] := by
      rw [ne_eq, List.dropWhile_eq_nil_iff]
      exact hall
    have hdrop : (decode s ++ [Rune.char b.toNat]).dropWhile Rune.isSpace =
        (decode s).dropWhile Rune.isSpace ++ [Rune.char b.toNat] := by
      rw [List.dropWhile_append, if_neg (by simpa using hfront)]
    simp only [hdrop, List.reverse_append, List.reverse_singleton, List.singleton_append]
    rw [List.dropWhile_cons_of_pos hspace]

theorem bytes_ne_nil (r : Rune) : r.bytes ≠ [] := by
  cases r with
  | char code =>
    rw [Rune.bytes, Utf8.encode]
    repeat' split
    all_goals exact List.cons_ne_nil _ _
  | stray byte => exact List.cons_ne_nil _ _

/-- A text of which nothing is left is blank throughout. -/
theorem isSpace_of_trim_eq_nil {s : Bytes} (h : trim s = []) :
    ∀ r ∈ decode s, Rune.isSpace r = true := by
  rw [← List.dropWhile_eq_nil_iff]
  unfold trim at h
  generalize hfront : (decode s).dropWhile Rune.isSpace = front at h
  cases front with
  | nil => rfl
  | cons r front =>
    -- The first rune that is left is no blank, so trimming the end stops there.
    have hr : ¬ Rune.isSpace r = true := by
      have hhead := List.head?_dropWhile_not Rune.isSpace (decode s)
      simpa [hfront] using hhead
    have hkept : r ∈ (((r :: front).reverse.dropWhile Rune.isSpace).reverse) := by
      rw [List.reverse_cons, List.dropWhile_append]
      split
      · rw [List.dropWhile_cons_of_neg hr]
        simp
      · simp
    have hbytes : r.bytes = [] := List.flatMap_eq_nil_iff.mp h r hkept
    exact absurd hbytes (bytes_ne_nil r)

/-- Blanks in front of a text do not matter. -/
theorem trim_append_of_trim_eq_nil {blank : Bytes} (h : trim blank = []) {b : UInt8}
    (hb : b.toNat < 0x80) (s : Bytes) : trim (blank ++ b :: s) = trim (b :: s) := by
  unfold trim
  rw [Utf8.decode_append_ascii hb, List.dropWhile_append_of_pos (isSpace_of_trim_eq_nil h)]

/-- A text between two characters that are no blanks has nothing to trim. -/
theorem trim_enclosed {a b : UInt8} (ha : a.toNat < 0x80) (hb : b.toNat < 0x80)
    (hblankA : isSpace a.toNat = false) (hblankB : isSpace b.toNat = false) (s : Bytes) :
    trim (a :: (s ++ [b])) = a :: (s ++ [b]) := by
  have hdecode : decode (a :: (s ++ [b])) = .char a.toNat :: (decode s ++ [.char b.toNat]) := by
    rw [Utf8.decode_cons, Utf8.lead_one ha, List.drop_zero, decode_append_singleton hb]
  have hnotA : ¬ Rune.isSpace (.char a.toNat) = true := by simp [Rune.isSpace, hblankA]
  have hnotB : ¬ Rune.isSpace (.char b.toNat) = true := by simp [Rune.isSpace, hblankB]
  have hbytes := Utf8.flatMap_bytes_decode (a :: (s ++ [b]))
  unfold trim
  rw [hdecode] at hbytes ⊢
  simp only [List.dropWhile_cons_of_neg hnotA]
  rw [← List.cons_append, List.reverse_append, List.reverse_singleton, List.singleton_append,
    List.dropWhile_cons_of_neg hnotB, List.reverse_cons, List.reverse_reverse, List.cons_append]
  exact hbytes

end Text

end ScanTriage
