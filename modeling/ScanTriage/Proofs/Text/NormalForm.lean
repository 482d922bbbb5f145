import ScanTriage.Proofs.Text.Compact

/-!
# Compaction as a normal form

A text starts with the encoding of a character, or its first byte is a stray one
(`Utf8.Reads`). So every text is read in one way, and its runes are that reading
(`Utf8.reads_iff`). A compact text is the encoding of the reading without its
blanks: it is read as just these characters, and compaction leaves it as it is
(`compact_normalForm`). A blank ends whatever sequence it interrupts
(`compact_append_blank`), so what stands on its two sides is never read together.
-/

namespace ScanTriage

namespace Utf8

variable {s : Bytes} {chars : List Char}

/-! ## Characters -/

theorem isScalar_toNat (c : Char) : IsScalar c.toNat := by
  have hvalid : c.toNat.isValidChar := c.valid
  unfold Nat.isValidChar at hvalid
  unfold IsScalar
  omega

theorem isScalar_of_mem_map {code : Nat} (h : code ∈ chars.map Char.toNat) : IsScalar code := by
  obtain ⟨c, -, rfl⟩ := List.mem_map.mp h
  exact isScalar_toNat c

theorem exists_char {code : Nat} (h : IsScalar code) : ∃ c : Char, c.toNat = code := by
  have hvalid : code.isValidChar := by
    unfold IsScalar at h
    unfold Nat.isValidChar
    omega
  exact ⟨Char.ofNatAux code hvalid, rfl⟩

theorem exists_chars {codes : List Nat} (h : ∀ c ∈ codes, IsScalar c) :
    ∃ chars : List Char, chars.map Char.toNat = codes := by
  induction codes with
  | nil => exact ⟨[], rfl⟩
  | cons code codes ih =>
    obtain ⟨hcode, hcodes⟩ := List.forall_mem_cons.mp h
    obtain ⟨c, rfl⟩ := exists_char hcode
    obtain ⟨chars, rfl⟩ := ih hcodes
    exact ⟨c :: chars, rfl⟩

theorem utf8EncodeChar_eq (c : Char) : String.utf8EncodeChar c = encode c.toNat := by
  have hscalar : c.toNat < 0xD800 ∨ 0xE000 ≤ c.toNat ∧ c.toNat < 0x110000 := isScalar_toNat c
  have hval : c.val.toNat = c.toNat := rfl
  -- The bounds are spelled in another way, and the lead byte is cut to its bits.
  simp only [String.utf8EncodeChar, encode, hval, ← Nat.lt_add_one_iff, Nat.reduceAdd,
    Nat.add_comm 0xC0, Nat.add_comm 0xE0, Nat.add_comm 0xF0, Nat.add_comm 0x80]
  split
  · rfl
  split
  · rw [Nat.mod_eq_of_lt (b := 32) (by omega)]
  split
  · rw [Nat.mod_eq_of_lt (b := 16) (by omega)]
  · rw [Nat.mod_eq_of_lt (b := 8) (by omega)]

theorem flatMap_utf8EncodeChar (chars : List Char) :
    chars.flatMap String.utf8EncodeChar = (chars.map Char.toNat).flatMap encode := by
  rw [List.flatMap_map, funext utf8EncodeChar_eq]

/-- The text is the encoding of characters. -/
def IsText (s : Bytes) : Prop := ∃ chars : List Char, s = chars.flatMap String.utf8EncodeChar

theorem isText_iff : IsText s ↔ isValid s = true := by
  constructor
  · rintro ⟨chars, rfl⟩
    rw [flatMap_utf8EncodeChar]
    exact isValid_flatMap_encode fun c hc => isScalar_of_mem_map hc
  · intro h
    obtain ⟨codes, hcodes, rfl⟩ := exists_codes h
    obtain ⟨chars, rfl⟩ := exists_chars hcodes
    exact ⟨chars, (flatMap_utf8EncodeChar chars).symm⟩

instance : DecidablePred IsText := fun _ => decidable_of_iff' _ isText_iff

/-! ## Readings -/

/-- The text reads as these characters: a byte that no character starts with
stands for U+FFFD. -/
inductive Reads : Bytes → List Char → Prop
  | nil : Reads [] []
  | char (c : Char) {s : Bytes} {chars : List Char} : Reads s chars →
    Reads (String.utf8EncodeChar c ++ s) (c :: chars)
  | stray {b : UInt8} {s : Bytes} {chars : List Char} :
    (∀ c, ¬ String.utf8EncodeChar c <+: b :: s) → Reads s chars →
    Reads (b :: s) ('\uFFFD' :: chars)

theorem reads_flatMap (chars : List Char) :
    Reads (chars.flatMap String.utf8EncodeChar) chars := by
  induction chars with
  | nil => exact .nil
  | cons c chars ih => exact .char c ih

theorem decode_utf8EncodeChar_append (c : Char) (s : Bytes) :
    decode (String.utf8EncodeChar c ++ s) = .char c.toNat :: decode s := by
  rw [utf8EncodeChar_eq, decode_encode_append (isScalar_toNat c)]

theorem lead_stray {a x : UInt8} (h : (lead a s).1 = .stray x) :
    x = a ∧ s.drop (lead a s).2 = s := by
  have hbytes := lead_bytes a s
  rw [h, Rune.bytes, List.singleton_append] at hbytes
  exact List.cons.inj hbytes

theorem lead_of_not_prefix {a : UInt8} (h : ∀ c, ¬ String.utf8EncodeChar c <+: a :: s) :
    (lead a s).1 = .stray a ∧ s.drop (lead a s).2 = s := by
  have hbytes := lead_bytes a s
  have hscalar := lead_isScalar a s
  cases hrune : (lead a s).1 with
  | char code =>
    rw [hrune] at hbytes hscalar
    obtain ⟨c, rfl⟩ := exists_char hscalar
    rw [Rune.bytes, ← utf8EncodeChar_eq] at hbytes
    exact absurd ⟨_, hbytes⟩ (h c)
  | stray x =>
    obtain ⟨rfl, hrest⟩ := lead_stray hrune
    exact ⟨rfl, hrest⟩

theorem Reads.map_toNat (h : Reads s chars) :
    chars.map Char.toNat = (decode s).map Rune.code := by
  induction h with
  | nil => rfl
  | char c _ ih => rw [decode_utf8EncodeChar_append, List.map_cons, List.map_cons, ih, Rune.code]
  | stray hb _ ih =>
    obtain ⟨hrune, hrest⟩ := lead_of_not_prefix hb
    rw [decode_cons, hrune, hrest, List.map_cons, List.map_cons, ih]
    rfl

/-- The rune at the front is read as its code point. -/
theorem Reads.cons {a : UInt8} {c : Char} (hcode : c.toNat = (lead a s).1.code)
    (h : Reads (s.drop (lead a s).2) chars) : Reads (a :: s) (c :: chars) := by
  cases hrune : (lead a s).1 with
  | char code =>
    have hbytes := lead_bytes a s
    rw [hrune] at hbytes hcode
    obtain rfl : c.toNat = code := hcode
    rw [← hbytes, Rune.bytes, ← utf8EncodeChar_eq]
    exact .char c h
  | stray x =>
    have hdecode := decode_cons a s
    obtain ⟨rfl, hrest⟩ := lead_stray hrune
    rw [hrune] at hcode hdecode
    obtain rfl : c = '\uFFFD' := Char.toNat_inj.mp hcode
    refine .stray ?_ (hrest ▸ h)
    -- A character at the front would have been decoded.
    rintro d ⟨rest, htext⟩
    rw [← htext, decode_utf8EncodeChar_append] at hdecode
    cases hdecode

/-- The runes of a text are its reading. -/
theorem reads_iff : Reads s chars ↔ chars.map Char.toNat = (decode s).map Rune.code := by
  refine ⟨Reads.map_toNat, fun h => ?_⟩
  induction chars generalizing s with
  | nil =>
    cases s with
    | nil => exact .nil
    | cons a s => cases (decode_cons a s ▸ h)
  | cons c chars ih =>
    cases s with
    | nil => cases h
    | cons a s =>
      rw [decode_cons, List.map_cons, List.map_cons] at h
      obtain ⟨hcode, hrest⟩ := List.cons.inj h
      exact .cons hcode (ih hrest)

instance : DecidableRel Reads := fun _ _ => decidable_of_iff' _ reads_iff

theorem existsUnique_reads (s : Bytes) : ∃! chars, Reads s chars := by
  obtain ⟨chars, hchars⟩ := exists_chars fun c hc => isScalar_of_mem_codes (s := s) hc
  refine ⟨chars, reads_iff.mpr hchars, fun others hothers => ?_⟩
  refine List.map_injective_iff.mpr (fun _ _ => Char.toNat_inj.mp) ?_
  rw [hothers.map_toNat, hchars]

end Utf8

namespace Text

open Utf8 (IsText Reads encode decode)

variable {s : Bytes} {chars : List Char}

/-! ## Blanks -/

def blanks : List Nat := [0x20, 0x09, 0x0A, 0x0D, 0x0B, 0x0C]

theorem isAsciiSpace_iff {n : Nat} : isAsciiSpace n = true ↔ n ∈ blanks := by
  simp only [isAsciiSpace, blanks, Bool.or_eq_true, Bool.and_eq_true, decide_eq_true_eq, beq_iff_eq,
    List.mem_cons, List.not_mem_nil, or_false]
  omega

theorem not_isAsciiSpace : (fun n => !isAsciiSpace n) = fun n => decide (n ∉ blanks) := by
  funext n
  rw [Bool.eq_iff_iff, Bool.not_eq_true', ← Bool.not_eq_true, isAsciiSpace_iff, decide_eq_true_eq]

/-! ## Compact texts -/

theorem compact_of_reads (h : Reads s chars) :
    compact s = (chars.filter (·.toNat ∉ blanks)).flatMap String.utf8EncodeChar := by
  rw [compact, ← h.map_toNat, not_isAsciiSpace, Utf8.flatMap_utf8EncodeChar, List.filter_map]
  rfl

theorem reads_compact (h : Reads s chars) :
    Reads (compact s) (chars.filter (·.toNat ∉ blanks)) := by
  rw [compact_of_reads h]
  exact Utf8.reads_flatMap _

theorem compact_compact (s : Bytes) : compact (compact s) = compact s := by
  obtain ⟨chars, hchars, -⟩ := Utf8.existsUnique_reads s
  rw [compact_of_reads (reads_compact hchars), compact_of_reads hchars, List.filter_filter]
  simp only [Bool.and_self]

theorem isText_compact (s : Bytes) : IsText (compact s) := by
  obtain ⟨chars, hchars, -⟩ := Utf8.existsUnique_reads s
  exact ⟨_, compact_of_reads hchars⟩

theorem compact_of_isText (h : IsText s) : compact s = s.filter (·.toNat ∉ blanks) := by
  rw [compact_eq_filter (Utf8.isText_iff.mp h)]
  exact congrArg (s.filter ·) (funext fun b => congrFun not_isAsciiSpace b.toNat)

theorem notMem_blanks {b : UInt8} (h : b ∈ compact s) : b.toNat ∉ blanks := by
  have hkept := compact_of_isText (isText_compact s)
  rw [compact_compact] at hkept
  exact of_decide_eq_true (List.filter_eq_self.mp hkept.symm b h)

/-! ## Texts cut by blanks -/

theorem lt_of_mem_blanks : ∀ n ∈ blanks, n < 0x80 := by decide

theorem compact_append_blank {b : UInt8} (hb : b.toNat ∈ blanks) (front back : Bytes) :
    compact (front ++ b :: back) = compact front ++ compact back := by
  have hascii := lt_of_mem_blanks _ hb
  have hspace := isAsciiSpace_iff.mpr hb
  rw [compact, Utf8.decode_append_ascii hascii, Utf8.decode_cons, Utf8.lead_one hascii]
  simp [compact, Rune.code, hspace]

theorem compact_blanks_append {gap : Bytes} (hgap : ∀ b ∈ gap, b.toNat ∈ blanks) (back : Bytes) :
    compact (gap ++ back) = compact back := by
  induction gap with
  | nil => rfl
  | cons b gap ih =>
    obtain ⟨hb, hgap⟩ := List.forall_mem_cons.mp hgap
    rw [List.cons_append, ← List.nil_append (b :: _), compact_append_blank hb, ih hgap]
    rfl

theorem compact_append_gap {gap : Bytes} (hne : gap ≠ []) (hgap : ∀ b ∈ gap, b.toNat ∈ blanks)
    (front back : Bytes) : compact (front ++ gap ++ back) = compact front ++ compact back := by
  obtain ⟨b, gap, rfl⟩ := List.exists_cons_of_ne_nil hne
  obtain ⟨hb, hgap⟩ := List.forall_mem_cons.mp hgap
  rw [List.append_assoc, List.cons_append, compact_append_blank hb, compact_blanks_append hgap]

/-- Compaction takes every text, well-formed or not, to the encoding of the
characters that it reads as, without the blanks. These are all that the compact
text reads as: pieces of a sequence that is broken by blanks stay apart. -/
theorem compact_normalForm (s : Bytes) :
    IsText (compact s) ∧ (∀ b ∈ compact s, b.toNat ∉ blanks) ∧
    (∃! chars, Reads s chars) ∧
    (∀ chars, Reads s chars →
      compact s = (chars.filter (·.toNat ∉ blanks)).flatMap String.utf8EncodeChar ∧
      ∀ others, Reads (compact s) others ↔ others = chars.filter (·.toNat ∉ blanks)) ∧
    compact (compact s) = compact s ∧
    (IsText s → compact s = s.filter (·.toNat ∉ blanks) ∧
      ∀ t, compact (s ++ t) = compact s ++ compact t) ∧
    ∀ front gap back, s = front ++ gap ++ back → gap ≠ [] → (∀ b ∈ gap, b.toNat ∈ blanks) →
      compact s = compact front ++ compact back := by
  refine ⟨isText_compact s, fun _ => notMem_blanks, Utf8.existsUnique_reads s,
    fun chars hchars => ⟨compact_of_reads hchars, fun others => ?_⟩, compact_compact s,
    fun htext => ⟨compact_of_isText htext, compact_append (Utf8.isText_iff.mp htext)⟩, ?_⟩
  · have hreads := reads_compact hchars
    refine ⟨fun hothers => ?_, fun h => h ▸ hreads⟩
    exact (Utf8.existsUnique_reads (compact s)).unique hothers hreads
  · rintro front gap back rfl hne hgap
    exact compact_append_gap hne hgap front back

/-- A euro sign that is broken by blanks, in front of a whole one. -/
def brokenEuro : Bytes := [0xE2, 0x20, 0x82, 0x09, 0x0A, 0xAC, 0x0B, 0xE2, 0x82, 0xAC]

theorem compact_normalForm_brokenEuro :
    compact brokenEuro = "\uFFFD\uFFFD\uFFFD€" ∧
      compact ("€ €" ++ brokenEuro) = "€€" ++ compact brokenEuro ∧
      compact brokenEuro = compact [0xE2, 0x20, 0x82] ++ compact [0xAC, 0x0B, 0xE2, 0x82, 0xAC] := by
  have hreads : Reads brokenEuro ['\uFFFD', ' ', '\uFFFD', '\t', '\n', '\uFFFD', '\x0B', '€'] := by
    decide
  have htext : IsText ("€ €" : Bytes) := by decide
  obtain ⟨-, -, -, hbroken, -, -, hgap⟩ := compact_normalForm brokenEuro
  obtain ⟨-, -, -, -, -, hwhole, -⟩ := compact_normalForm "€ €"
  refine ⟨(hbroken _ hreads).1, ?_, hgap _ [0x09, 0x0A] _ rfl (by simp) (by simp [blanks])⟩
  rw [(hwhole htext).2, (hwhole htext).1]
  rfl

end Text

end ScanTriage
