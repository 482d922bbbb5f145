import ScanTriage.Proofs.Json.RoundTrip

/-!
# Spellings of a name

A name can be spelled with escapes in many ways. For an ASCII name, the tolerant
and the strict reader agree on which strings spell it (`nameOf_eq_iff`), although
they differ on surrogates and on stray bytes: where they do, neither gives ASCII.
-/

namespace ScanTriage

namespace Json

open Utf8 (IsAscii)

/-- A string body spells an ASCII text, character by character. -/
inductive Spells : (body text : Bytes) → Prop
  | nil : Spells [] []
  | plain {b : UInt8} {s text : Bytes} (hb : IsPlain b) (hs : Spells s text) :
      Spells (b :: s) (b :: text)
  | short {e c : UInt8} {s text : Bytes} (he : shortEscape? e = some c) (hs : Spells s text) :
      Spells (Bytes.backslash :: e :: s) (c :: text)
  | unicode {h₁ h₂ h₃ h₄ : UInt8} {code : Nat} {s text : Bytes}
      (hex : hex4? [h₁, h₂, h₃, h₄] = some (code, [])) (hcode : code < 0x80) (hs : Spells s text) :
      Spells (Bytes.backslash :: 0x75 :: h₁ :: h₂ :: h₃ :: h₄ :: s) (UInt8.ofNat code :: text)

variable {fuel : Nat} {acc s t body text : Bytes}

theorem exists_hex4? {h₁ h₂ h₃ h₄ : UInt8}
    (h : ∀ h ∈ [h₁, h₂, h₃, h₄], (Bytes.hexValue? h).isSome = true) :
    ∃ code < 0x10000, hex4? [h₁, h₂, h₃, h₄] = some (code, []) := by
  have hvalue : ∀ h : UInt8, (Bytes.hexValue? h).isSome = true →
      ∃ d < 16, Bytes.hexValue? h = some d := by
    intro h hh
    obtain ⟨d, hd⟩ := Option.isSome_iff_exists.mp hh
    have := (Option.filter_eq_some_iff.mp hd).2
    exact ⟨d, by simpa using this, hd⟩
  simp only [List.forall_mem_cons] at h
  obtain ⟨d₁, hd₁, hh₁⟩ := hvalue h₁ h.1
  obtain ⟨d₂, hd₂, hh₂⟩ := hvalue h₂ h.2.1
  obtain ⟨d₃, hd₃, hh₃⟩ := hvalue h₃ h.2.2.1
  obtain ⟨d₄, hd₄, hh₄⟩ := hvalue h₄ h.2.2.2.1
  refine ⟨((d₁ * 16 + d₂) * 16 + d₃) * 16 + d₄, by omega, ?_⟩
  simp [hex4?, hh₁, hh₂, hh₃, hh₄]

/-- A character above ASCII. -/
def IsLong (code : Nat) : Prop := Utf8.IsScalar code ∧ 0x80 ≤ code

theorem isLong_replacement : IsLong Utf8.replacement := by
  simp [IsLong, Utf8.IsScalar, Utf8.replacement]

theorem isLong_surrogatePair? {high low code : Nat} (h : surrogatePair? high low = some code) :
    IsLong code := by
  simp only [surrogatePair?, Bool.and_eq_true, decide_eq_true_eq] at h
  split at h
  · obtain rfl := Option.some.inj h
    simp only [IsLong, Utf8.IsScalar]
    omega
  · cases h

/-! ## Readers of string bodies -/

/-- What the two readers of a string body have in common. -/
structure IsBodyReader (t : Bytes)
    (read : (fuel : Nat) → (acc body : Bytes) → Option (Bytes × Bytes)) : Prop
    extends UndoesEscapes t read where
  /-- A surrogate becomes some character that is not ASCII. -/
  surrogate (fuel : Nat) (acc : Bytes) {h₁ h₂ h₃ h₄ : UInt8} {code : Nat} {s : Bytes}
      {p : Bytes × Bytes} :
    hex4? [h₁, h₂, h₃, h₄] = some (code, []) → isSurrogate code = true →
    read (fuel + 1) acc (Bytes.backslash :: 0x75 :: h₁ :: h₂ :: h₃ :: h₄ :: s) = some p →
    ∃ b, 0x80 ≤ b.toNat ∧ acc.reverse ++ [b] <+: p.1
  /-- What has been read stays. -/
  keeps {fuel : Nat} {acc s : Bytes} {p : Bytes × Bytes} :
    read fuel acc s = some p → acc.reverse <+: p.1

namespace IsBodyReader

variable {read : Nat → Bytes → Bytes → Option (Bytes × Bytes)} {rest : Bytes}
  (h : IsBodyReader t read)

include h

theorem read_spelled (hspells : Spells body text) (hfuel : body.length ≤ fuel) (acc : Bytes) :
    read fuel acc body = some (acc.reverse ++ text, t) := by
  induction hspells generalizing fuel acc with
  | nil => rw [h.nil, List.append_nil]
  | plain hb hs ih =>
    rw [List.length_cons] at hfuel
    obtain ⟨fuel, rfl⟩ : ∃ n, fuel = n + 1 := ⟨fuel - 1, by omega⟩
    rw [h.plain fuel acc hb, ih (by omega)]
    simp
  | short he hs ih =>
    simp only [List.length_cons] at hfuel
    obtain ⟨fuel, rfl⟩ : ∃ n, fuel = n + 1 := ⟨fuel - 1, by omega⟩
    rw [h.short fuel acc he, ih (by omega)]
    simp
  | @unicode h₁ h₂ h₃ h₄ code s text hex hcode hs ih =>
    simp only [List.length_cons] at hfuel
    obtain ⟨fuel, rfl⟩ : ∃ n, fuel = n + 1 := ⟨fuel - 1, by omega⟩
    have hsurrogate : isSurrogate code = false := by
      simp only [isSurrogate, Bool.and_eq_false_iff, decide_eq_false_iff_not]
      omega
    rw [h.unicode fuel acc hex hsurrogate, Utf8.encode_ascii hcode, ih (by omega)]
    simp

/-- A text that starts with what has been read and `c` goes on after `c`. -/
theorem split {c : UInt8} (hread : read fuel (c :: acc) s = some (acc.reverse ++ text, rest)) :
    ∃ more, text = c :: more ∧
      read fuel (c :: acc) s = some ((c :: acc).reverse ++ more, rest) := by
  obtain ⟨more, hmore⟩ := h.keeps hread
  rw [List.reverse_cons, List.append_assoc, List.singleton_append] at hmore
  obtain rfl := List.append_cancel_left hmore
  exact ⟨more, rfl, by rw [hread]; simp⟩

/-- What is read as an ASCII text spells it. -/
theorem spells_of_read (hbody : StringBody body) (htext : IsAscii text)
    (hread : read fuel acc body = some (acc.reverse ++ text, rest)) (hfuel : body.length ≤ fuel) :
    Spells body text := by
  induction hbody generalizing fuel acc text with
  | nil =>
    rw [h.nil, Option.some.injEq, Prod.mk.injEq] at hread
    obtain rfl : text = [] := by simpa using hread.1
    exact .nil
  | @plain b s hquote hslash hspace hs ih =>
    rw [List.length_cons] at hfuel
    obtain ⟨fuel, rfl⟩ : ∃ n, fuel = n + 1 := ⟨fuel - 1, by omega⟩
    have hb : IsPlain b := ⟨hquote, hslash, hspace⟩
    rw [h.plain fuel acc hb] at hread
    obtain ⟨more, rfl, hmore⟩ := h.split hread
    exact .plain hb (ih (List.forall_mem_cons.mp htext).2 hmore (by omega))
  | @short e s he hs ih =>
    simp only [List.length_cons] at hfuel
    obtain ⟨fuel, rfl⟩ : ∃ n, fuel = n + 1 := ⟨fuel - 1, by omega⟩
    obtain ⟨c, hc⟩ := Option.isSome_iff_exists.mp he
    rw [h.short fuel acc hc] at hread
    obtain ⟨more, rfl, hmore⟩ := h.split hread
    exact .short hc (ih (List.forall_mem_cons.mp htext).2 hmore (by omega))
  | @unicode h₁ h₂ h₃ h₄ s hex hs ih =>
    simp only [List.length_cons] at hfuel
    obtain ⟨fuel, rfl⟩ : ∃ n, fuel = n + 1 := ⟨fuel - 1, by omega⟩
    obtain ⟨code, hcode, hex⟩ := exists_hex4? hex
    -- Whatever is not ASCII would show in the text.
    have hlong : ∀ b : UInt8, 0x80 ≤ b.toNat → ¬ acc.reverse ++ [b] <+: acc.reverse ++ text := by
      intro b hb hpre
      obtain ⟨more, rfl⟩ := (List.prefix_append_right_inj _).mp hpre
      exact absurd (htext b (by simp)) (by omega)
    by_cases hsurrogate : isSurrogate code = true
    · obtain ⟨b, hb, hpre⟩ := h.surrogate fuel acc hex hsurrogate hread
      exact absurd hpre (hlong b hb)
    · have hsurrogate : isSurrogate code = false := by simpa using hsurrogate
      rw [h.unicode fuel acc hex hsurrogate] at hread
      by_cases hascii : code < 0x80
      · rw [Utf8.encode_ascii hascii] at hread
        obtain ⟨more, rfl, hmore⟩ := h.split hread
        exact .unicode hex hascii (ih (List.forall_mem_cons.mp htext).2 hmore (by omega))
      · have hscalar : Utf8.IsScalar code := by
          simp only [isSurrogate, Bool.and_eq_false_iff, decide_eq_false_iff_not] at hsurrogate
          unfold Utf8.IsScalar
          omega
        obtain ⟨b, u, hu, hb⟩ := Utf8.encode_long hscalar (by omega)
        refine absurd ?_ (hlong b hb)
        have hkeeps := h.keeps hread
        rw [hu] at hkeeps
        refine List.IsPrefix.trans ?_ hkeeps
        simp

end IsBodyReader

/-! ## The tolerant reader -/

namespace Glimpse

theorem unescapeOnto_keeps (fuel : Nat) (acc s : Bytes) : acc <:+ unescapeOnto fuel acc s := by
  fun_induction unescapeOnto fuel acc s with
  | case1 | case2 | case3 | case6 | case7 => exact List.suffix_refl _
  | case4 fuel acc b hspace hslash h₁ h₂ h₃ h₄ more _ code more' _ ih =>
    exact (List.suffix_append _ _).trans ih
  | case5 fuel acc b hspace hslash e more _ c _ ih => exact (List.suffix_cons c acc).trans ih
  | case8 fuel acc b rest hspace hslash ih => exact (List.suffix_cons b acc).trans ih

theorem isLong_joinSurrogate (high : Nat) (rest : Bytes) : IsLong (joinSurrogate high rest).1 := by
  unfold joinSurrogate
  split
  · next a b c d more =>
    cases hpair : surrogatePair? high (hex4 [a, b, c, d]) with
    | none => exact isLong_replacement
    | some code => exact isLong_surrogatePair? hpair
  · exact isLong_replacement

theorem isBodyReader :
    IsBodyReader [] fun fuel acc s => some ((unescapeOnto fuel acc s).reverse, []) where
  nil fuel acc := by cases fuel <;> rfl
  plain fuel acc b s hb := by
    cases s <;> simp [unescapeOnto.eq_def (fuel + 1), hb.space, hb.slash]
  short fuel acc e c s he := by
    have hu : ∀ (h₁ h₂ h₃ h₄ : UInt8) (more : List UInt8), e = 0x75 →
        s = h₁ :: h₂ :: h₃ :: h₄ :: more → False := by
      rintro h₁ h₂ h₃ h₄ more rfl -
      cases he
    rw [unescapeOnto.eq_4 _ _ _ _ _ hu, he]
    rfl
  unicode fuel acc h₁ h₂ h₃ h₄ code s hex hsurrogate := by
    have hcode : hex4 [h₁, h₂, h₃, h₄] = code := by rw [hex4, hex]
    rw [unescapeOnto.eq_3, hcode]
    simp only [hsurrogate]
    rfl
  surrogate fuel acc h₁ h₂ h₃ h₄ code s p hex hsurrogate hread := by
    have hcode : hex4 [h₁, h₂, h₃, h₄] = code := by rw [hex4, hex]
    rw [unescapeOnto.eq_3, hcode] at hread
    simp only [hsurrogate] at hread
    obtain ⟨hscalar, hlong⟩ := isLong_joinSurrogate code s
    obtain ⟨b, u, hu, hb⟩ := Utf8.encode_long hscalar hlong
    have hkeeps := unescapeOnto_keeps fuel ((Utf8.encode (joinSurrogate code s).1).reverse ++ acc)
      (joinSurrogate code s).2
    obtain rfl := Option.some.inj hread
    refine ⟨b, hb, List.IsPrefix.trans ?_ (List.reverse_prefix.mpr hkeeps)⟩
    simp [hu]
  keeps {fuel acc s p} hread := by
    obtain rfl := Option.some.inj hread
    exact List.reverse_prefix.mpr (unescapeOnto_keeps fuel acc s)

/-- A body without a backslash stands for itself in either way. -/
theorem unescape_eq (hbody : StringBody body) :
    unescape body = (unescapeOnto body.length [] body).reverse := by
  have hself : ∀ acc, Bytes.backslash ∉ body →
      unescapeOnto body.length acc body = body.reverse ++ acc := by
    induction hbody with
    | nil => intro acc _; rfl
    | @plain b s hquote hslash hspace hs ih =>
      intro acc hmem
      have hb : IsPlain b := ⟨hquote, hslash, hspace⟩
      have hread := congrArg Prod.fst (Option.some.inj (@isBodyReader.plain s.length acc b s hb))
      rw [List.length_cons, List.reverse_injective hread,
        ih (b :: acc) fun h => hmem (List.mem_cons_of_mem b h)]
      simp
    | short | unicode => exact fun acc hmem => absurd (List.mem_cons_self ..) hmem
  unfold unescape
  split
  · rfl
  · next hmem =>
    rw [hself [] (by simpa using hmem)]
    simp

theorem unescape_eq_iff (hbody : StringBody body) (htext : IsAscii text) :
    unescape body = text ↔ Spells body text := by
  rw [unescape_eq hbody]
  constructor
  · rintro rfl
    have hread : some ((unescapeOnto body.length [] body).reverse, ([] : Bytes)) =
      some (([] : Bytes).reverse ++ (unescapeOnto body.length [] body).reverse, []) := rfl
    exact isBodyReader.spells_of_read hbody htext hread (Nat.le_refl body.length)
  · intro hspells
    have hread := isBodyReader.read_spelled hspells (Nat.le_refl body.length) []
    exact (Prod.mk.inj (Option.some.inj hread)).1

end Glimpse

/-! ## The strict reader -/

theorem readStringOnto_keeps {p : Bytes × Bytes} (h : readStringOnto fuel acc s = some p) :
    acc.reverse <+: p.1 := by
  have hcons : ∀ (c : UInt8) (acc : Bytes), acc.reverse <+: (c :: acc).reverse := by simp
  fun_induction readStringOnto fuel acc s with
  | case1 | case2 | case4 | case5 => cases h
  | case3 => cases h; exact List.prefix_refl _
  | case6 fuel acc b hquote hspace hslash more ih =>
    obtain ⟨⟨code, after⟩, -, h⟩ := Option.bind_eq_some_iff.mp h
    refine List.IsPrefix.trans ?_ (ih code after h)
    simp
  | case7 fuel acc b hquote hspace hslash e more hu ih =>
    obtain ⟨c, -, h⟩ := Option.bind_eq_some_iff.mp h
    exact (hcons c acc).trans (ih c h)
  | case8 fuel acc b rest hquote hspace hslash ih => exact (hcons b acc).trans (ih h)

/-- A surrogate, with or without its partner, stands for no ASCII character. -/
theorem isLong_unicodeEscape? {high code : Nat} {more after : Bytes}
    (hex : hex4? s = some (high, more)) (hsurrogate : isSurrogate high = true)
    (h : unicodeEscape? s = some (code, after)) : IsLong code := by
  simp only [unicodeEscape?, hex, hsurrogate, Option.bind_eq_bind, Option.bind_some, if_true] at h
  repeat' split at h
  · next hpair =>
    cases h
    exact isLong_surrogatePair? hpair
  all_goals
    cases h
    exact isLong_replacement

theorem isBodyReader_readStringOnto (t : Bytes) :
    IsBodyReader t fun fuel acc s => readStringOnto (fuel + 1) acc (s ++ Bytes.quote :: t) where
  toUndoesEscapes := undoesEscapes_readStringOnto t
  surrogate fuel acc h₁ h₂ h₃ h₄ code s p hex hsurrogate hread := by
    simp only [List.cons_append, readStringOnto.eq_4] at hread
    obtain ⟨⟨code', after⟩, hescape, hread⟩ := Option.bind_eq_some_iff.mp hread
    obtain ⟨hscalar, hlong⟩ := isLong_unicodeEscape? (hex4?_append hex _) hsurrogate hescape
    obtain ⟨b, u, hu, hb⟩ := Utf8.encode_long hscalar hlong
    refine ⟨b, hb, List.IsPrefix.trans ?_ (readStringOnto_keeps hread)⟩
    simp [hu]
  keeps := readStringOnto_keeps

theorem read?_quoted_iff (hbody : StringBody body) (htext : IsAscii text) :
    read? (Bytes.quote :: (body ++ [Bytes.quote])) = some (string text) ↔ Spells body text := by
  have hreader := isBodyReader_readStringOnto []
  have hlen : body.length ≤ (body ++ [Bytes.quote]).length := by simp
  have hvalue : ∀ fuel, readValue (fuel + 1) 0 (Bytes.quote :: (body ++ [Bytes.quote])) =
      (readString (body ++ [Bytes.quote])).bind fun p => some (string p.1, p.2) :=
    fun fuel => rfl
  rw [read?, hvalue, readString]
  constructor
  · intro hread
    cases hraw : readStringOnto ((body ++ [Bytes.quote]).length + 1) [] (body ++ [Bytes.quote]) with
    | none =>
      simp only [hraw, Option.bind_eq_bind, Option.bind_none] at hread
      cases hread
    | some p =>
      obtain ⟨raw, rest⟩ := p
      have hscrub : Utf8.scrub raw = text := by
        simp only [hraw, Option.bind_eq_bind, Option.bind_some] at hread
        split at hread
        · simpa using hread
        · cases hread
      obtain rfl := Utf8.eq_of_scrub_ascii htext hscrub
      exact hreader.spells_of_read hbody htext hraw hlen
  · intro hspells
    have hraw := hreader.read_spelled hspells hlen []
    simp only [hraw, Option.bind_eq_bind, Option.bind_some]
    rw [List.reverse_nil, List.nil_append, Utf8.scrub_ascii htext]
    rfl

/-- The two readers agree on which strings spell an ASCII name. -/
theorem nameOf_eq_iff (hbody : StringBody body) (htext : IsAscii text) :
    nameOf (Bytes.quote :: (body ++ [Bytes.quote])) = text ↔
      read? (Bytes.quote :: (body ++ [Bytes.quote])) = some (string text) := by
  rw [nameOf_quoted hbody, Glimpse.unescape_eq_iff hbody htext, read?_quoted_iff hbody htext]

end Json

end ScanTriage
