import ScanTriage.Proofs.Json.Scan
import ScanTriage.Proofs.Text.Utf8

/-!
# Written strings

What `writeString` puts between the quotes is a string body. Every reader that
undoes escapes gives back the scrubbed text (`UndoesEscapes.read_stringBody`), and
so does the strict one (`readString_stringBody`).
-/

namespace ScanTriage

namespace Json

def stringBody (html : Bool) (s : Bytes) : Bytes :=
  (Utf8.decode s).flatMap fun r => escape html r.code

theorem writeString_eq (html : Bool) (s : Bytes) :
    writeString html s = Bytes.quote :: (stringBody html s ++ [Bytes.quote]) := rfl

theorem writeString_scrub (html : Bool) (s : Bytes) :
    writeString html (Utf8.scrub s) = writeString html s := by
  rw [writeString, Utf8.decode_scrub, List.flatMap_map]
  rfl

/-! ## String bodies -/

theorem StringBody.append {s t : Bytes} (hs : StringBody s) (ht : StringBody t) :
    StringBody (s ++ t) := by
  induction hs with
  | nil => exact ht
  | plain hquote hslash hspace _ ih => exact .plain hquote hslash hspace ih
  | short he _ ih => exact .short he ih
  | unicode hex _ ih => exact .unicode hex ih

/-- A byte that stands for itself in a string. -/
structure IsPlain (b : UInt8) : Prop where
  quote : b ≠ Bytes.quote
  slash : b ≠ Bytes.backslash
  space : ¬ b < 0x20

theorem StringBody.of_plain {s : Bytes} (hs : ∀ b ∈ s, IsPlain b) : StringBody s := by
  induction s with
  | nil => exact .nil
  | cons b s ih =>
    obtain ⟨⟨hquote, hslash, hspace⟩, hs⟩ := List.forall_mem_cons.mp hs
    exact .plain hquote hslash hspace (ih hs)

theorem isPlain_of_le {n : Nat} (hlow : 0x80 ≤ n) (hhigh : n < 0x100) :
    IsPlain (UInt8.ofNat n) := by
  have hn := Utf8.toNat_ofNat hhigh
  have hne : ∀ b : UInt8, b.toNat < 0x80 → UInt8.ofNat n ≠ b := by
    rintro b hb rfl
    omega
  refine ⟨hne _ (by decide), hne _ (by decide), ?_⟩
  rw [UInt8.lt_iff_toNat_lt, hn]
  simp only [UInt8.reduceToNat]
  omega

theorem isPlain_encode {code : Nat} (h : Utf8.IsScalar code) (hspace : 0x20 ≤ code)
    (hquote : code ≠ 0x22) (hslash : code ≠ 0x5C) : ∀ b ∈ Utf8.encode code, IsPlain b := by
  unfold Utf8.IsScalar at h
  unfold Utf8.encode
  repeat' split
  · have hcode := Utf8.toNat_ofNat (n := code) (by omega)
    simp only [List.mem_singleton, forall_eq]
    have hne : ∀ b : UInt8, code ≠ b.toNat → UInt8.ofNat code ≠ b := by
      rintro b hb rfl
      omega
    refine ⟨hne _ hquote, hne _ hslash, ?_⟩
    rw [UInt8.lt_iff_toNat_lt, hcode]
    simp only [UInt8.reduceToNat]
    omega
  all_goals
    simp only [List.mem_cons, List.not_mem_nil, or_false, forall_eq_or_imp, forall_eq]
    repeat' apply And.intro
  all_goals exact isPlain_of_le (by omega) (by omega)

theorem hexValue?_hexDigit : ∀ d < 16, Bytes.hexValue? (Bytes.hexDigit d) = some d := by decide

theorem hex_four (n : Nat) : Bytes.hex 4 n =
    [Bytes.hexDigit (n / 16 / 16 / 16 % 16), Bytes.hexDigit (n / 16 / 16 % 16),
      Bytes.hexDigit (n / 16 % 16), Bytes.hexDigit (n % 16)] := rfl

theorem hex4?_hex {code : Nat} (hcode : code < 0x10000) :
    hex4? (Bytes.hex 4 code) = some (code, []) := by
  simp only [hex_four, hex4?, hexValue?_hexDigit _ (Nat.mod_lt _ (by decide : 0 < 16)), Option.bind_eq_bind,
    Option.bind_some, Option.some.injEq, Prod.mk.injEq, and_true]
  omega

theorem hex4?_append {h₁ h₂ h₃ h₄ : UInt8} {code : Nat}
    (hex : hex4? [h₁, h₂, h₃, h₄] = some (code, [])) (t : Bytes) :
    hex4? (h₁ :: h₂ :: h₃ :: h₄ :: t) = some (code, t) := by
  simp only [hex4?, Option.bind_eq_bind, Option.bind_eq_some_iff, Option.some.injEq,
    Prod.mk.injEq, and_true] at hex ⊢
  exact hex

theorem isSurrogate_of_isScalar {code : Nat} (h : Utf8.IsScalar code) :
    isSurrogate code = false := by
  simp only [isSurrogate, Bool.and_eq_false_iff, decide_eq_false_iff_not]
  unfold Utf8.IsScalar at h
  omega

/-- A character as it is written: as itself, behind a backslash, or by its
number. -/
inductive Escaped (code : Nat) : Bytes → Prop
  | plain (h : ∀ b ∈ Utf8.encode code, IsPlain b) : Escaped code (Utf8.encode code)
  | short {e c : UInt8} (he : shortEscape? e = some c) (hc : Utf8.encode code = [c]) :
      Escaped code [Bytes.backslash, e]
  | unicode (h : code < 0x10000) : Escaped code (Bytes.backslash :: 0x75 :: Bytes.hex 4 code)

theorem escape_escaped (html : Bool) {code : Nat} (h : Utf8.IsScalar code) :
    Escaped code (escape html code) := by
  have hshort : ∀ (e c : UInt8) (text : Bytes), text = [Bytes.backslash, e] →
      shortEscape? e = some c → Utf8.encode code = [c] → Escaped code text := by
    rintro e c text rfl he hc
    exact .short he hc
  unfold escape
  split
  · next hc => exact hshort 0x22 0x22 _ (by decide) rfl (by rw [eq_of_beq hc]; rfl)
  split
  · next hc => exact hshort 0x5C 0x5C _ (by decide) rfl (by rw [eq_of_beq hc]; rfl)
  split
  · next hc => exact hshort 0x62 0x08 _ (by decide) rfl (by rw [eq_of_beq hc]; rfl)
  split
  · next hc => exact hshort 0x66 0x0C _ (by decide) rfl (by rw [eq_of_beq hc]; rfl)
  split
  · next hc => exact hshort 0x6E 0x0A _ (by decide) rfl (by rw [eq_of_beq hc]; rfl)
  split
  · next hc => exact hshort 0x72 0x0D _ (by decide) rfl (by rw [eq_of_beq hc]; rfl)
  split
  · next hc => exact hshort 0x74 0x09 _ (by decide) rfl (by rw [eq_of_beq hc]; rfl)
  split
  · next hc =>
    have hmark : Bytes.ofString "\\u" = [Bytes.backslash, 0x75] := by decide
    rw [hmark]
    refine .unicode ?_
    simp only [Bool.or_eq_true, Bool.and_eq_true, decide_eq_true_eq, beq_iff_eq] at hc
    omega
  · next hquote hslash _ _ _ _ _ hspace =>
    simp only [Bool.or_eq_true, decide_eq_true_eq, beq_iff_eq, not_or] at hquote hslash hspace
    exact .plain (isPlain_encode h (by omega) hquote hslash)

theorem Escaped.stringBody {code : Nat} {text : Bytes} (h : Escaped code text) :
    StringBody text := by
  cases h with
  | plain h => exact .of_plain h
  | short he hc => exact .short (by simp [he]) .nil
  | unicode h =>
    refine .unicode ?_ .nil
    simp only [List.forall_mem_cons]
    refine ⟨?_, ?_, ?_, ?_, List.forall_mem_nil _⟩
    all_goals rw [hexValue?_hexDigit _ (Nat.mod_lt _ (by decide)), Option.isSome_some]

theorem isBody_stringBody (html : Bool) (s : Bytes) : StringBody (stringBody html s) := by
  have hrunes : ∀ runes : List Rune, (∀ r ∈ runes, Utf8.IsScalar r.code) →
      StringBody (runes.flatMap fun r => escape html r.code) := by
    intro runes hrunes
    induction runes with
    | nil => exact .nil
    | cons r runes ih =>
      obtain ⟨hr, hrunes⟩ := List.forall_mem_cons.mp hrunes
      exact (escape_escaped html hr).stringBody.append (ih hrunes)
  exact hrunes _ fun r hr => Utf8.isScalar_of_mem_decode hr

/-! ## Reading written strings -/

/-- A reader of string bodies that takes plain bytes as they are and undoes
escapes. `read` gets what has been read so far, in reverse, and gives the whole
text and what follows it. -/
structure UndoesEscapes (t : Bytes)
    (read : (fuel : Nat) → (acc body : Bytes) → Option (Bytes × Bytes)) : Prop where
  nil (fuel : Nat) (acc : Bytes) : read fuel acc [] = some (acc.reverse, t)
  plain (fuel : Nat) (acc : Bytes) {b : UInt8} {s : Bytes} : IsPlain b →
    read (fuel + 1) acc (b :: s) = read fuel (b :: acc) s
  short (fuel : Nat) (acc : Bytes) {e c : UInt8} {s : Bytes} : shortEscape? e = some c →
    read (fuel + 1) acc (Bytes.backslash :: e :: s) = read fuel (c :: acc) s
  unicode (fuel : Nat) (acc : Bytes) {h₁ h₂ h₃ h₄ : UInt8} {code : Nat} {s : Bytes} :
    hex4? [h₁, h₂, h₃, h₄] = some (code, []) → isSurrogate code = false →
    read (fuel + 1) acc (Bytes.backslash :: 0x75 :: h₁ :: h₂ :: h₃ :: h₄ :: s) =
      read fuel ((Utf8.encode code).reverse ++ acc) s

namespace UndoesEscapes

variable {read : Nat → Bytes → Bytes → Option (Bytes × Bytes)} {t text : Bytes}
  (h : UndoesEscapes t read)

include h

theorem read_plain {s : Bytes} (hs : ∀ b ∈ s, IsPlain b) (fuel : Nat) (acc more : Bytes) :
    read (fuel + s.length) acc (s ++ more) = read fuel (s.reverse ++ acc) more := by
  induction s generalizing acc with
  | nil => rfl
  | cons b s ih =>
    obtain ⟨hb, hs⟩ := List.forall_mem_cons.mp hs
    rw [List.cons_append, List.length_cons, ← Nat.add_assoc, h.plain _ _ hb, ih hs]
    simp

/-- A written character is read back, in no more turns than it has bytes. -/
theorem read_escaped {code : Nat} (htext : Escaped code text) (hcode : Utf8.IsScalar code) :
    ∃ used ≤ text.length, ∀ fuel acc more,
      read (fuel + used) acc (text ++ more) =
        read fuel ((Utf8.encode code).reverse ++ acc) more := by
  cases htext with
  | plain hplain => exact ⟨_, le_rfl, h.read_plain hplain⟩
  | short he hc =>
    refine ⟨1, by simp, fun fuel acc more => ?_⟩
    rw [hc]
    exact h.short fuel acc he
  | unicode hsmall =>
    refine ⟨1, by simp, fun fuel acc more => ?_⟩
    exact h.unicode fuel acc (hex4?_hex hsmall) (isSurrogate_of_isScalar hcode)

/-- What was written is read back, scrubbed. -/
theorem read_stringBody (html : Bool) (s : Bytes) {fuel : Nat}
    (hfuel : (stringBody html s).length ≤ fuel) (acc : Bytes) :
    read fuel acc (stringBody html s) = some (acc.reverse ++ Utf8.scrub s, t) := by
  have hrunes : ∀ (runes : List Rune) (fuel : Nat) (acc : Bytes),
      (∀ r ∈ runes, Utf8.IsScalar r.code) →
      (runes.flatMap fun r => escape html r.code).length ≤ fuel →
      read fuel acc (runes.flatMap fun r => escape html r.code) =
        some (acc.reverse ++ runes.flatMap fun r => Utf8.encode r.code, t) := by
    intro runes
    induction runes with
    | nil =>
      intro fuel acc _ _
      simp only [List.flatMap_nil, List.append_nil]
      exact h.nil fuel acc
    | cons r runes ih =>
      intro fuel acc hscalar hfuel
      obtain ⟨hr, hscalar⟩ := List.forall_mem_cons.mp hscalar
      obtain ⟨used, hused, hread⟩ := h.read_escaped (escape_escaped html hr) hr
      rw [List.flatMap_cons, List.length_append] at hfuel
      obtain ⟨fuel, rfl⟩ : ∃ n, fuel = n + used := ⟨fuel - used, by omega⟩
      rw [List.flatMap_cons, hread, ih fuel _ hscalar (by omega)]
      simp
  exact hrunes _ fuel acc (fun r hr => Utf8.isScalar_of_mem_decode hr) hfuel

end UndoesEscapes

theorem undoesEscapes_readStringOnto (t : Bytes) :
    UndoesEscapes t fun fuel acc s => readStringOnto (fuel + 1) acc (s ++ Bytes.quote :: t) where
  nil fuel acc := by cases t <;> rfl
  plain fuel acc b s hb := by
    rw [List.cons_append]
    cases hs : s ++ Bytes.quote :: t <;>
      simp [readStringOnto.eq_def (fuel + 1 + 1), hb.quote, hb.slash, hb.space]
  short fuel acc e c s he := by
    have hu : e = 0x75 → False := by
      rintro rfl
      cases he
    rw [List.cons_append, List.cons_append, readStringOnto.eq_5 _ _ _ _ _ hu, he]
    rfl
  unicode fuel acc h₁ h₂ h₃ h₄ code s hex hsurrogate := by
    have hescape : unicodeEscape? (h₁ :: h₂ :: h₃ :: h₄ :: (s ++ Bytes.quote :: t)) =
        some (code, s ++ Bytes.quote :: t) := by
      simp [unicodeEscape?, hex4?_append hex, hsurrogate]
    simp only [List.cons_append]
    rw [readStringOnto.eq_4, hescape]
    rfl

/-- The strict reader gives back what was written, scrubbed. -/
theorem readString_stringBody (html : Bool) (s t : Bytes) :
    readString (stringBody html s ++ Bytes.quote :: t) = some (Utf8.scrub s, t) := by
  have hfuel : (stringBody html s).length ≤ (stringBody html s ++ Bytes.quote :: t).length := by
    simp
  rw [readString, (undoesEscapes_readStringOnto t).read_stringBody html s hfuel []]
  simp [Utf8.scrub_scrub]

end Json

end ScanTriage
