import ScanTriage.Text.Utf8

/-!
# Decoding and encoding UTF-8

Every rune stands for a scalar value (`isScalar_of_mem_decode`), and a scalar
value is read back from its encoding whatever follows (`decode_encode_append`).
So a scrubbed text is scrubbed already (`scrub_scrub`). Decoding loses nothing
(`flatMap_bytes_decode`), and no sequence reaches over an ASCII byte
(`decode_append_ascii`).
-/

namespace ScanTriage

namespace Utf8

def IsScalar (code : Nat) : Prop := code < 0xD800 ∨ 0xE000 ≤ code ∧ code < 0x110000

/-! ## Runes one by one -/

theorem decodeOnto_skip (skip : Nat) (s : Bytes) (acc : List Rune) :
    decodeOnto skip s acc = decodeOnto 0 (s.drop skip) acc := by
  induction skip generalizing s with
  | zero => rfl
  | succ skip ih =>
    cases s with
    | nil => rfl
    | cons a s => exact ih s

theorem decodeOnto_acc (s : Bytes) (acc : List Rune) :
    decodeOnto 0 s acc = decodeOnto 0 s [] ++ acc := by
  induction hn : s.length using Nat.strongRecOn generalizing s acc with
  | _ n ih =>
  cases s with
  | nil => rfl
  | cons a s =>
    have hlen : (s.drop (lead a s).2).length < n := by
      simp only [List.length_cons] at hn
      simp only [List.length_drop]
      omega
    simp only [decodeOnto]
    rw [decodeOnto_skip, ih _ hlen _ _ rfl, decodeOnto_skip _ s [(lead a s).1],
      ih _ hlen _ [(lead a s).1] rfl]
    simp

theorem decode_cons (a : UInt8) (s : Bytes) :
    decode (a :: s) = (lead a s).1 :: decode (s.drop (lead a s).2) := by
  simp only [decode, decodeOnto]
  rw [decodeOnto_skip, decodeOnto_acc, List.reverse_append]
  rfl

theorem isContinuation_iff {b : UInt8} :
    isContinuation b = true ↔ 0x80 ≤ b.toNat ∧ b.toNat ≤ 0xBF := by
  simp [isContinuation, UInt8.le_iff_toNat_le]

theorem isSecond_iff {a b : UInt8} : isSecond a b = true ↔
    0x80 ≤ b.toNat ∧ b.toNat ≤ 0xBF ∧ (a.toNat = 0xE0 → 0xA0 ≤ b.toNat) ∧
      (a.toNat = 0xED → b.toNat ≤ 0x9F) ∧ (a.toNat = 0xF0 → 0x90 ≤ b.toNat) ∧
      (a.toNat = 0xF4 → b.toNat ≤ 0x8F) := by
  have heq : ∀ c : UInt8, (a == c) = decide (a.toNat = c.toNat) := by
    intro c
    rw [Bool.eq_iff_iff, beq_iff_eq, decide_eq_true_eq, UInt8.toNat_inj]
  unfold isSecond
  simp only [heq, decide_eq_true_eq]
  repeat' split
  all_goals simp_all [isContinuation_iff, UInt8.le_iff_toNat_le]
  all_goals omega

theorem lead_isScalar (a : UInt8) (s : Bytes) : IsScalar (lead a s).1.code := by
  have hreplacement : IsScalar replacement := by simp [IsScalar, replacement]
  unfold lead
  repeat' split
  all_goals try exact hreplacement
  all_goals
    simp only [Bool.and_eq_true, decide_eq_true_eq, UInt8.le_iff_toNat_le, UInt8.lt_iff_toNat_lt,
      isContinuation_iff, isSecond_iff, UInt8.reduceToNat] at *
    simp only [Rune.code, IsScalar, low6]
    omega

/-- What a text decodes to stands for scalar values. -/
theorem isScalar_of_mem_decode {s : Bytes} {r : Rune} (h : r ∈ decode s) : IsScalar r.code := by
  induction hn : s.length using Nat.strongRecOn generalizing s with
  | _ n ih =>
  cases s with
  | nil => cases h
  | cons a s =>
    rw [decode_cons] at h
    rcases List.mem_cons.mp h with rfl | h
    · exact lead_isScalar a s
    · refine ih _ ?_ h rfl
      simp only [List.length_cons] at hn
      simp only [List.length_drop]
      omega

theorem isScalar_of_mem_codes {s : Bytes} {code : Nat} (h : code ∈ (decode s).map Rune.code) :
    IsScalar code := by
  obtain ⟨r, hr, rfl⟩ := List.mem_map.mp h
  exact isScalar_of_mem_decode hr

theorem toNat_ofNat {n : Nat} (h : n < 0x100) : (UInt8.ofNat n).toNat = n :=
  UInt8.toNat_ofNat_of_lt' h

theorem lead_one {a : UInt8} (ha : a.toNat < 0x80) (t : Bytes) :
    lead a t = (.char a.toNat, 0) := by
  simp [lead, UInt8.lt_iff_toNat_lt, ha]

theorem lead_two {a b : UInt8} (ha : 0xC2 ≤ a.toNat ∧ a.toNat ≤ 0xDF)
    (hb : isContinuation b = true) (t : Bytes) :
    lead a (b :: t) = (.char (a.toNat % 0x20 * 0x40 + low6 b), 1) := by
  have hone : ¬ a.toNat < 0x80 := by omega
  simp [lead, UInt8.lt_iff_toNat_lt, UInt8.le_iff_toNat_le, ha, hone, hb]

theorem lead_three {a b c : UInt8} (ha : 0xE0 ≤ a.toNat ∧ a.toNat ≤ 0xEF)
    (hb : isSecond a b = true) (hc : isContinuation c = true) (t : Bytes) :
    lead a (b :: c :: t) = (.char (a.toNat % 0x10 * 0x1000 + low6 b * 0x40 + low6 c), 2) := by
  have hone : ¬ a.toNat < 0x80 := by omega
  have htwo : ¬ a.toNat ≤ 0xDF := by omega
  simp [lead, UInt8.lt_iff_toNat_lt, UInt8.le_iff_toNat_le, ha, hone, htwo, hb, hc]

theorem lead_four {a b c d : UInt8} (ha : 0xF0 ≤ a.toNat ∧ a.toNat ≤ 0xF4)
    (hb : isSecond a b = true) (hc : isContinuation c = true) (hd : isContinuation d = true)
    (t : Bytes) : lead a (b :: c :: d :: t) =
      (.char (a.toNat % 8 * 0x40000 + low6 b * 0x1000 + low6 c * 0x40 + low6 d), 3) := by
  have hone : ¬ a.toNat < 0x80 := by omega
  have htwo : ¬ a.toNat ≤ 0xDF := by omega
  have hthree : ¬ a.toNat ≤ 0xEF := by omega
  simp [lead, UInt8.lt_iff_toNat_lt, UInt8.le_iff_toNat_le, ha, hone, htwo, hthree, hb, hc, hd]

/-- A scalar value is read back from its encoding. -/
theorem decode_encode_append {code : Nat} (h : IsScalar code) (t : Bytes) :
    decode (encode code ++ t) = .char code :: decode t := by
  unfold IsScalar at h
  unfold encode
  split
  · have ha := toNat_ofNat (n := code) (by omega)
    rw [List.singleton_append, decode_cons, lead_one (by omega), ha]
    rfl
  split
  · have ha := toNat_ofNat (n := 0xC0 + code / 0x40) (by omega)
    have hb := toNat_ofNat (n := 0x80 + code % 0x40) (by omega)
    have hcode : code = (0xC0 + code / 0x40) % 0x20 * 0x40 + (0x80 + code % 0x40) % 0x40 := by omega
    simp only [List.cons_append, List.nil_append]
    rw [decode_cons, lead_two (by omega) (by rw [isContinuation_iff]; omega), ha, low6, hb,
      ← hcode]
    rfl
  split
  · have ha := toNat_ofNat (n := 0xE0 + code / 0x1000) (by omega)
    have hb := toNat_ofNat (n := 0x80 + code / 0x40 % 0x40) (by omega)
    have hc := toNat_ofNat (n := 0x80 + code % 0x40) (by omega)
    have hcode : code = (0xE0 + code / 0x1000) % 0x10 * 0x1000 +
      (0x80 + code / 0x40 % 0x40) % 0x40 * 0x40 + (0x80 + code % 0x40) % 0x40 := by omega
    simp only [List.cons_append, List.nil_append]
    rw [decode_cons, lead_three (by omega) (by rw [isSecond_iff]; omega)
      (by rw [isContinuation_iff]; omega), ha, low6, low6, hb, hc, ← hcode]
    rfl
  · have ha := toNat_ofNat (n := 0xF0 + code / 0x40000) (by omega)
    have hb := toNat_ofNat (n := 0x80 + code / 0x1000 % 0x40) (by omega)
    have hc := toNat_ofNat (n := 0x80 + code / 0x40 % 0x40) (by omega)
    have hd := toNat_ofNat (n := 0x80 + code % 0x40) (by omega)
    have hcode : code = (0xF0 + code / 0x40000) % 8 * 0x40000 +
      (0x80 + code / 0x1000 % 0x40) % 0x40 * 0x1000 +
      (0x80 + code / 0x40 % 0x40) % 0x40 * 0x40 + (0x80 + code % 0x40) % 0x40 := by omega
    simp only [List.cons_append, List.nil_append]
    rw [decode_cons, lead_four (by omega) (by rw [isSecond_iff]; omega)
      (by rw [isContinuation_iff]; omega) (by rw [isContinuation_iff]; omega), ha, low6, low6,
      low6, hb, hc, hd, ← hcode]
    rfl

theorem decode_flatMap_encode {codes : List Nat} (h : ∀ c ∈ codes, IsScalar c) :
    decode (codes.flatMap encode) = codes.map .char := by
  induction codes with
  | nil => rfl
  | cons c codes ih =>
    rw [List.flatMap_cons, decode_encode_append (h c (List.mem_cons_self ..)),
      ih fun c hc => h c (List.mem_cons_of_mem _ hc), List.map_cons]

theorem decode_scrub (s : Bytes) : decode (scrub s) = (decode s).map fun r => .char r.code := by
  have hcodes : scrub s = ((decode s).map Rune.code).flatMap encode := by
    simp [scrub, List.flatMap_map]
  rw [hcodes, decode_flatMap_encode fun c hc => isScalar_of_mem_codes hc, List.map_map]
  rfl

theorem scrub_scrub (s : Bytes) : scrub (scrub s) = scrub s := by
  rw [scrub, decode_scrub]
  simp [scrub, List.flatMap_map, Rune.code]

theorem isValid_scrub (s : Bytes) : isValid (scrub s) = true := by
  refine List.all_eq_true.mpr fun r hr => ?_
  have hmem : r ∈ decode (scrub s) := List.mem_reverse.mpr hr
  rw [decode_scrub] at hmem
  obtain ⟨r', -, rfl⟩ := List.mem_map.mp hmem
  rfl

/-! ## Nothing is lost -/

theorem eq_ofNat {a : UInt8} {n : Nat} (h : a.toNat = n) : UInt8.ofNat n = a := by
  rw [← h, UInt8.ofNat_toNat]

theorem encode_two {a b : UInt8} (ha : 0xC2 ≤ a.toNat ∧ a.toNat ≤ 0xDF)
    (hb : 0x80 ≤ b.toNat ∧ b.toNat ≤ 0xBF) :
    encode (a.toNat % 0x20 * 0x40 + low6 b) = [a, b] := by
  unfold low6
  rw [encode, if_neg (by omega), if_pos (by omega), eq_ofNat (a := a) (by omega),
    eq_ofNat (a := b) (by omega)]

theorem encode_three {a b c : UInt8} (ha : 0xE0 ≤ a.toNat ∧ a.toNat ≤ 0xEF)
    (hb : isSecond a b = true) (hc : 0x80 ≤ c.toNat ∧ c.toNat ≤ 0xBF) :
    encode (a.toNat % 0x10 * 0x1000 + low6 b * 0x40 + low6 c) = [a, b, c] := by
  rw [isSecond_iff] at hb
  unfold low6
  rw [encode, if_neg (by omega), if_neg (by omega), if_pos (by omega),
    eq_ofNat (a := a) (by omega), eq_ofNat (a := b) (by omega), eq_ofNat (a := c) (by omega)]

theorem encode_four {a b c d : UInt8} (ha : 0xF0 ≤ a.toNat ∧ a.toNat ≤ 0xF4)
    (hb : isSecond a b = true) (hc : 0x80 ≤ c.toNat ∧ c.toNat ≤ 0xBF)
    (hd : 0x80 ≤ d.toNat ∧ d.toNat ≤ 0xBF) :
    encode (a.toNat % 8 * 0x40000 + low6 b * 0x1000 + low6 c * 0x40 + low6 d) = [a, b, c, d] := by
  rw [isSecond_iff] at hb
  unfold low6
  rw [encode, if_neg (by omega), if_neg (by omega), if_neg (by omega),
    eq_ofNat (a := a) (by omega), eq_ofNat (a := b) (by omega), eq_ofNat (a := c) (by omega),
    eq_ofNat (a := d) (by omega)]

/-- A rune and what follows it are the text that it starts. -/
theorem lead_bytes (a : UInt8) (s : Bytes) :
    (lead a s).1.bytes ++ s.drop (lead a s).2 = a :: s := by
  unfold lead
  repeat' split
  all_goals try rfl
  all_goals
    simp only [Bool.and_eq_true, decide_eq_true_eq, UInt8.le_iff_toNat_le, UInt8.lt_iff_toNat_lt,
      isContinuation_iff, UInt8.reduceToNat] at *
    simp only [Rune.bytes]
  · rw [encode, if_pos (by assumption), UInt8.ofNat_toNat]
    rfl
  · rw [encode_two (by omega) (by omega)]
    rfl
  · rw [encode_three (by omega) (by simp_all) (by omega)]
    rfl
  · rw [encode_four (by omega) (by simp_all) (by omega) (by omega)]
    rfl

theorem flatMap_bytes_decode (s : Bytes) : (decode s).flatMap Rune.bytes = s := by
  induction hn : s.length using Nat.strongRecOn generalizing s with
  | _ n ih =>
  cases s with
  | nil => rfl
  | cons a s =>
    have hlen : (s.drop (lead a s).2).length < n := by
      simp only [List.length_cons] at hn
      simp only [List.length_drop]
      omega
    rw [decode_cons, List.flatMap_cons, ih _ hlen _ rfl, lead_bytes]

/-- A text without stray bytes is scrubbed already. -/
theorem scrub_of_isValid {s : Bytes} (h : isValid s = true) : scrub s = s := by
  have hchar : ∀ r ∈ decode s, encode r.code = r.bytes := by
    intro r hr
    have hvalid := List.all_eq_true.mp h r (List.mem_reverse.mp hr)
    cases r with
    | char code => rfl
    | stray b => cases hvalid
  rw [scrub, List.flatMap_def, List.map_congr_left hchar, ← List.flatMap_def, flatMap_bytes_decode]

/-! ## ASCII -/

def IsAscii (s : Bytes) : Prop := ∀ b ∈ s, b.toNat < 0x80

theorem decode_ascii {s : Bytes} (h : IsAscii s) : decode s = s.map fun b => .char b.toNat := by
  induction s with
  | nil => rfl
  | cons b s ih =>
    obtain ⟨hb, hs⟩ := List.forall_mem_cons.mp h
    rw [decode_cons, lead_one hb, List.drop_zero, ih hs, List.map_cons]

/-- A sequence never reaches over an ASCII byte. -/
theorem lead_append {b : UInt8} (hb : b.toNat < 0x80) (a : UInt8) (s t : Bytes) :
    lead a (s ++ b :: t) = lead a s ∧ (lead a s).2 ≤ s.length := by
  have hcont : isContinuation b = false := by
    rw [Bool.eq_false_iff, ne_eq, isContinuation_iff]
    omega
  have hsecond : isSecond a b = false := by
    rw [Bool.eq_false_iff, ne_eq, isSecond_iff]
    omega
  rcases s with _ | ⟨x, _ | ⟨y, _ | ⟨z, s⟩⟩⟩
  · rcases t with _ | ⟨u, _ | ⟨v, t⟩⟩ <;> simp [lead, hcont, hsecond] <;> split <;> simp
  · rcases t with _ | ⟨u, t⟩ <;> simp only [lead, List.cons_append, List.nil_append, hcont] <;>
      split <;> simp <;> split <;> simp
  · simp only [lead, List.cons_append, List.nil_append, hcont]
    repeat' split
    all_goals simp_all
  · simp only [lead, List.cons_append]
    repeat' split
    all_goals simp

theorem decode_append_ascii {b : UInt8} (hb : b.toNat < 0x80) (s t : Bytes) :
    decode (s ++ b :: t) = decode s ++ decode (b :: t) := by
  induction hn : s.length using Nat.strongRecOn generalizing s with
  | _ n ih =>
  cases s with
  | nil => rfl
  | cons a s =>
    obtain ⟨hlead, hle⟩ := lead_append hb a s t
    have hlen : (s.drop (lead a s).2).length < n := by
      simp only [List.length_cons] at hn
      simp only [List.length_drop]
      omega
    rw [List.cons_append, decode_cons, hlead, List.drop_append_of_le_length hle, ih _ hlen _ rfl,
      decode_cons a s, List.cons_append]

theorem encode_ascii {code : Nat} (h : code < 0x80) : encode code = [UInt8.ofNat code] := if_pos h

theorem scrub_ascii {s : Bytes} (h : IsAscii s) : scrub s = s := by
  rw [scrub, decode_ascii h, List.flatMap_map]
  induction s with
  | nil => rfl
  | cons b s ih =>
    obtain ⟨hb, hs⟩ := List.forall_mem_cons.mp h
    rw [List.flatMap_cons, ih hs, Rune.code, encode_ascii hb, UInt8.ofNat_toNat,
      List.singleton_append]

/-- A longer sequence starts with a byte that is no character of its own. -/
theorem encode_long {code : Nat} (hcode : IsScalar code) (h : 0x80 ≤ code) :
    ∃ b t, encode code = b :: t ∧ 0x80 ≤ b.toNat := by
  unfold IsScalar at hcode
  unfold encode
  repeat' split
  · omega
  all_goals
    refine ⟨_, _, rfl, ?_⟩
    rw [toNat_ofNat (by omega)]
    omega

theorem le_lead_code {a : UInt8} (ha : 0x80 ≤ a.toNat) (s : Bytes) : 0x80 ≤ (lead a s).1.code := by
  have hreplacement : 0x80 ≤ replacement := by decide
  unfold lead
  repeat' split
  all_goals try exact hreplacement
  all_goals
    simp only [Bool.and_eq_true, decide_eq_true_eq, UInt8.le_iff_toNat_le, UInt8.lt_iff_toNat_lt,
      isContinuation_iff, isSecond_iff, UInt8.reduceToNat] at *
    simp only [Rune.code, low6]
    omega

/-- A text that is scrubbed to an ASCII text is that text. -/
theorem eq_of_scrub_ascii {s t : Bytes} (ht : IsAscii t) (h : scrub s = t) : s = t := by
  induction s generalizing t with
  | nil => exact h
  | cons a s ih =>
    rw [scrub, decode_cons, List.flatMap_cons] at h
    by_cases ha : a.toNat < 0x80
    · rw [lead_one ha, List.drop_zero, Rune.code, encode_ascii ha, UInt8.ofNat_toNat] at h
      rw [List.singleton_append, ← scrub] at h
      subst h
      rw [← ih (List.forall_mem_cons.mp ht).2 rfl]
    · obtain ⟨b, u, hu, hb⟩ := encode_long (lead_isScalar a s) (le_lead_code (by omega) s)
      subst h
      rw [hu] at ht
      exact absurd (ht b (List.mem_cons_self ..)) (by omega)

end Utf8

end ScanTriage
