import Mathlib.Data.List.Forall2
import ScanTriage.Proofs.Text.Utf8
import ScanTriage.Text.Case

/-!
# Texts that differ in ASCII characters

Two texts that differ in ASCII characters only are decoded alike, rune by rune
(`Utf8.decode_forall₂`), since an ASCII byte is never part of a longer
sequence. So lower-casing relates what the texts relate
(`Text.lower_forall₂`), and it takes letters of either case to the same
text (`Text.lower_eq_of_lowerByte_eq`).
-/

namespace ScanTriage

/-- A likeness of bytes that takes only ASCII bytes for each other. -/
def Utf8.ComparesAscii (Like : UInt8 → UInt8 → Prop) : Prop :=
  ∀ a b, Like a b → a = b ∨ a.toNat < 0x80 ∧ b.toNat < 0x80

/-- Runes that are equal or ASCII characters alike. -/
inductive Rune.Alike (Like : UInt8 → UInt8 → Prop) : Rune → Rune → Prop
  | same (r : Rune) : Alike Like r r
  | ascii {a b : UInt8} (like : Like a b) (left : a.toNat < 0x80) (right : b.toNat < 0x80) :
    Alike Like (.char a.toNat) (.char b.toNat)

namespace Utf8

variable {Like : UInt8 → UInt8 → Prop} {s t : Bytes}

/-- Texts alike are equal up to where each has an ASCII character. -/
theorem exists_common_front (hlike : ComparesAscii Like) (h : List.Forall₂ Like s t) :
    s = t ∨ ∃ front a b back back', s = front ++ a :: back ∧ t = front ++ b :: back' ∧
      a.toNat < 0x80 ∧ b.toNat < 0x80 := by
  induction h with
  | nil => exact .inl rfl
  | @cons a b s t hab _ ih =>
    rcases hlike a b hab with rfl | ⟨ha, hb⟩
    · rcases ih with rfl | ⟨front, x, y, back, back', rfl, rfl, hx, hy⟩
      · exact .inl rfl
      · exact .inr ⟨a :: front, x, y, back, back', rfl, rfl, hx, hy⟩
    · exact .inr ⟨[], a, b, s, t, rfl, rfl, ha, hb⟩

/-- No sequence reaches to where they differ. -/
theorem lead_eq_of_forall₂ (hlike : ComparesAscii Like) (h : List.Forall₂ Like s t) (a : UInt8) :
    lead a s = lead a t := by
  rcases exists_common_front hlike h with rfl | ⟨front, x, y, back, back', rfl, rfl, hx, hy⟩
  · rfl
  · rw [(lead_append hx a front back).1, (lead_append hy a front back').1]

theorem decode_forall₂ (hlike : ComparesAscii Like) (h : List.Forall₂ Like s t) :
    List.Forall₂ (Rune.Alike Like) (decode s) (decode t) := by
  -- A rune takes up to four bytes at once, so the induction is on the length.
  induction hn : s.length using Nat.strongRecOn generalizing s t with
  | _ n ih =>
  cases h with
  | nil => exact .nil
  | @cons a b s t hab hst =>
    have hrest : ∀ k, List.Forall₂ (Rune.Alike Like) (decode (s.drop k)) (decode (t.drop k)) := by
      intro k
      refine ih _ ?_ (List.forall₂_drop k hst) rfl
      simp only [List.length_cons] at hn
      simp only [List.length_drop]
      omega
    rw [decode_cons, decode_cons]
    rcases hlike a b hab with rfl | ⟨ha, hb⟩
    · rw [lead_eq_of_forall₂ hlike hst]
      exact .cons (.same _) (hrest _)
    · rw [lead_one ha, lead_one hb]
      exact .cons (.ascii hab ha hb) (hrest 0)

end Utf8

namespace Text

variable {Like : UInt8 → UInt8 → Prop} {s t : Bytes}

theorem toNat_lowerByte (b : UInt8) : (lowerByte b).toNat =
    if 0x41 ≤ b.toNat ∧ b.toNat ≤ 0x5A then b.toNat + 0x20 else b.toNat := by
  have hupper : Bytes.isUpper b = true ↔ 0x41 ≤ b.toNat ∧ b.toNat ≤ 0x5A := by
    simp [Bytes.isUpper, UInt8.le_iff_toNat_le]
  unfold lowerByte
  simp only [hupper]
  split
  · next h =>
    have hsum : (b + 0x20).toNat = (b.toNat + 0x20) % 2 ^ 8 := UInt8.toNat_add b 0x20
    omega
  · rfl

theorem encode_lowerCode_ascii {b : UInt8} (hb : b.toNat < 0x80) :
    Utf8.encode (lowerCode b.toNat) = [lowerByte b] := by
  have hbyte := toNat_lowerByte b
  have hcode : lowerCode b.toNat = (lowerByte b).toNat := by
    rw [hbyte]
    simp [lowerCode, hb]
  have hascii : (lowerByte b).toNat < 0x80 := by
    split at hbyte <;> omega
  rw [hcode, Utf8.encode_ascii hascii, UInt8.ofNat_toNat]

/-- Texts alike stay alike in lower case if ASCII characters do. -/
theorem lower_forall₂ {Like' : UInt8 → UInt8 → Prop} (hlike : Utf8.ComparesAscii Like)
    (hrefl : ∀ a, Like' a a) (hlower : ∀ a b, Like a b → Like' (lowerByte a) (lowerByte b))
    (h : List.Forall₂ Like s t) : List.Forall₂ Like' (lower s) (lower t) := by
  refine List.rel_flatMap (Utf8.decode_forall₂ hlike h) ?_
  rintro _ _ (r | ⟨hab, ha, hb⟩)
  · exact List.forall₂_same.mpr fun a _ => hrefl a
  · simp only [Rune.code, encode_lowerCode_ascii ha, encode_lowerCode_ascii hb]
    exact .cons (hlower _ _ hab) .nil

/-- The case of ASCII letters is lost in lower case. -/
theorem lower_eq_of_lowerByte_eq
    (h : List.Forall₂ (fun a b => lowerByte a = lowerByte b) s t) : lower s = lower t := by
  have hlike : Utf8.ComparesAscii fun a b => lowerByte a = lowerByte b := by
    intro a b hab
    have ha := toNat_lowerByte a
    have hb := toNat_lowerByte b
    rw [hab] at ha
    rw [← UInt8.toNat_inj]
    split at ha <;> split at hb <;> omega
  have hlower : List.Forall₂ Eq (lower s) (lower t) :=
    lower_forall₂ hlike (fun _ => rfl) (fun _ _ hab => hab) h
  exact List.forall₂_eq_eq_eq ▸ hlower

end Text

end ScanTriage
