import Mathlib.Data.List.DropRight
import ScanTriage.Proofs.Text.Utf8
import ScanTriage.Text.Space

/-!
# Texts without white space

A valid text is the encoding of its code points (`Utf8.exists_codes`), so it is
decoded on its own whatever follows it (`Utf8.decode_append`), and compaction
deletes its ASCII blanks (`compact_eq_filter`) piece by piece
(`compact_append`). Trimming takes all blanks from the ends, so it does not
matter whether it comes before compaction or after it (`compact_trim`).
-/

namespace ScanTriage

namespace Utf8

variable {codes : List Nat} {s t : Bytes}

theorem exists_codes (h : isValid s = true) :
    ∃ codes : List Nat, (∀ c ∈ codes, IsScalar c) ∧ s = codes.flatMap encode := by
  refine ⟨(decode s).map Rune.code, fun c hc => isScalar_of_mem_codes hc, ?_⟩
  rw [List.flatMap_map]
  exact (scrub_of_isValid h).symm

theorem isValid_flatMap_encode (h : ∀ c ∈ codes, IsScalar c) :
    isValid (codes.flatMap encode) = true := by
  refine List.all_eq_true.mpr fun r hr => ?_
  have hmem : r ∈ decode (codes.flatMap encode) := List.mem_reverse.mpr hr
  rw [decode_flatMap_encode h] at hmem
  obtain ⟨c, -, rfl⟩ := List.mem_map.mp hmem
  rfl

/-- No byte of a longer sequence is an ASCII character. -/
theorem le_of_mem_encode {code : Nat} (hcode : IsScalar code) (h : 0x80 ≤ code) {b : UInt8}
    (hb : b ∈ encode code) : 0x80 ≤ b.toNat := by
  unfold IsScalar at hcode
  unfold encode at hb
  repeat' split at hb
  · omega
  all_goals
    simp only [List.mem_cons, List.not_mem_nil, or_false] at hb
    rcases hb with rfl | rfl | rfl | rfl
  all_goals
    rw [toNat_ofNat (by omega)]
    omega

theorem decode_append (hs : isValid s = true) (t : Bytes) :
    decode (s ++ t) = decode s ++ decode t := by
  obtain ⟨codes, hcodes, rfl⟩ := exists_codes hs
  rw [decode_flatMap_encode hcodes]
  clear hs
  induction codes with
  | nil => rfl
  | cons c codes ih =>
    obtain ⟨hc, hcodes⟩ := List.forall_mem_cons.mp hcodes
    rw [List.flatMap_cons, List.append_assoc, decode_encode_append hc, ih hcodes, List.map_cons,
      List.cons_append]

end Utf8

namespace Text

open Utf8 (IsScalar encode decode)

variable {codes : List Nat} {s t : Bytes}

/-! ## Encodings of code points -/

theorem compact_flatMap_encode (h : ∀ c ∈ codes, IsScalar c) :
    compact (codes.flatMap encode) = (codes.filter fun c => !isAsciiSpace c).flatMap encode := by
  have hcode : Rune.code ∘ Rune.char = id := rfl
  rw [compact, Utf8.decode_flatMap_encode h, List.map_map, hcode, List.map_id]

def trimCodes (codes : List Nat) : List Nat := (codes.dropWhile isSpace).rdropWhile isSpace

theorem trim_flatMap_encode (h : ∀ c ∈ codes, IsScalar c) :
    trim (codes.flatMap encode) = (trimCodes codes).flatMap encode := by
  have hspace : Rune.isSpace ∘ Rune.char = isSpace := rfl
  simp only [trim, trimCodes, List.rdropWhile, Utf8.decode_flatMap_encode h, List.dropWhile_map,
    ← List.map_reverse, hspace, List.flatMap_map, Rune.bytes]

theorem mem_of_mem_trimCodes {c : Nat} (h : c ∈ trimCodes codes) : c ∈ codes :=
  (List.dropWhile_sublist _).subset ((List.rdropWhile_prefix _ _).subset h)

theorem isValid_trim (hs : Utf8.isValid s = true) : Utf8.isValid (trim s) = true := by
  obtain ⟨codes, hcodes, rfl⟩ := Utf8.exists_codes hs
  rw [trim_flatMap_encode hcodes]
  exact Utf8.isValid_flatMap_encode fun c hc => hcodes c (mem_of_mem_trimCodes hc)

/-! ## Compaction -/

theorem compact_append (hs : Utf8.isValid s = true) (t : Bytes) :
    compact (s ++ t) = compact s ++ compact t := by
  simp only [compact, Utf8.decode_append hs, List.map_append, List.filter_append,
    List.flatMap_append]

theorem isAsciiSpace_eq_false {n : Nat} (h : 0x80 ≤ n) : isAsciiSpace n = false := by
  rw [Bool.eq_false_iff]
  simp [isAsciiSpace]
  omega

/-- The bytes of a character are kept or deleted with it. -/
theorem filter_encode {c : Nat} (hc : IsScalar c) :
    (encode c).filter (fun b => !isAsciiSpace b.toNat) = if isAsciiSpace c then [] else encode c := by
  by_cases hascii : c < 0x80
  · have hbyte : (UInt8.ofNat c).toNat = c := Utf8.toNat_ofNat (by omega)
    rw [Utf8.encode_ascii hascii]
    cases hspace : isAsciiSpace c <;> simp [hbyte, hspace]
  · rw [isAsciiSpace_eq_false (by omega), List.filter_eq_self.mpr]
    · rfl
    · intro b hb
      rw [isAsciiSpace_eq_false (Utf8.le_of_mem_encode hc (by omega) hb)]
      rfl

/-- Of a valid text compaction deletes the ASCII blanks, byte by byte. -/
theorem compact_eq_filter (hs : Utf8.isValid s = true) :
    compact s = s.filter fun b => !isAsciiSpace b.toNat := by
  obtain ⟨codes, hcodes, rfl⟩ := Utf8.exists_codes hs
  rw [compact_flatMap_encode hcodes]
  clear hs
  induction codes with
  | nil => rfl
  | cons c codes ih =>
    obtain ⟨hc, hcodes⟩ := List.forall_mem_cons.mp hcodes
    rw [List.flatMap_cons, List.filter_append, filter_encode hc, ← ih hcodes]
    cases hspace : isAsciiSpace c <;> simp [hspace]

/-! ## Compaction and trimming -/

/-- What is dropped from the front anyway may be deleted before. -/
theorem filter_dropWhile {α : Type} {keep blank : α → Bool}
    (h : ∀ a, keep a = false → blank a = true) (l : List α) :
    (l.dropWhile blank).filter keep = (l.filter keep).dropWhile blank := by
  induction l with
  | nil => rfl
  | cons a l ih =>
    by_cases hblank : blank a = true
    · rw [List.dropWhile_cons_of_pos hblank, ih, List.filter_cons]
      split
      · rw [List.dropWhile_cons_of_pos hblank]
      · rfl
    · have hkeep : keep a = true := by
        by_contra hdrop
        exact hblank (h a (Bool.eq_false_iff.mpr hdrop))
      rw [List.dropWhile_cons_of_neg hblank, List.filter_cons_of_pos hkeep,
        List.dropWhile_cons_of_neg hblank]

theorem isSpace_of_isAsciiSpace {c : Nat} (h : isAsciiSpace c = true) : isSpace c = true := by
  simp only [isAsciiSpace, Bool.or_eq_true] at h
  rcases h with h | h <;> simp [isSpace, h]

theorem filter_trimCodes (codes : List Nat) :
    (trimCodes codes).filter (fun c => !isAsciiSpace c) =
      trimCodes (codes.filter fun c => !isAsciiSpace c) := by
  have hblank : ∀ c, (!isAsciiSpace c) = false → isSpace c = true :=
    fun c hc => isSpace_of_isAsciiSpace (by simpa using hc)
  rw [trimCodes, trimCodes, List.rdropWhile, List.rdropWhile, List.filter_reverse,
    filter_dropWhile hblank, List.filter_reverse, filter_dropWhile hblank]

theorem compact_trim (hs : Utf8.isValid s = true) : compact (trim s) = trim (compact s) := by
  obtain ⟨codes, hcodes, rfl⟩ := Utf8.exists_codes hs
  rw [trim_flatMap_encode hcodes, compact_flatMap_encode hcodes,
    compact_flatMap_encode fun c hc => hcodes c (mem_of_mem_trimCodes hc),
    trim_flatMap_encode fun c hc => hcodes c (List.mem_of_mem_filter hc), filter_trimCodes]

/-! ## Spacing -/

/-- ASCII blanks are deleted from one text and inserted into it anywhere to get
the other one. -/
inductive Respaced : Bytes → Bytes → Prop
  | nil : Respaced [] []
  | keep (b : UInt8) {s t : Bytes} : Respaced s t → Respaced (b :: s) (b :: t)
  | delete {b : UInt8} {s t : Bytes} : isAsciiSpace b.toNat = true → Respaced s t →
    Respaced (b :: s) t
  | insert {b : UInt8} {s t : Bytes} : isAsciiSpace b.toNat = true → Respaced s t →
    Respaced s (b :: t)

theorem Respaced.filter_eq (h : Respaced s t) :
    s.filter (fun b => !isAsciiSpace b.toNat) = t.filter fun b => !isAsciiSpace b.toNat := by
  induction h with
  | nil => rfl
  | keep b _ ih => rw [List.filter_cons, List.filter_cons, ih]
  | delete hb _ ih => rw [List.filter_cons_of_neg (by simp [hb]), ih]
  | insert hb _ ih => rw [List.filter_cons_of_neg (by simp [hb]), ih]

theorem respaced_iff : Respaced s t ↔
    s.filter (fun b => !isAsciiSpace b.toNat) = t.filter fun b => !isAsciiSpace b.toNat := by
  refine ⟨Respaced.filter_eq, fun h => ?_⟩
  induction s generalizing t with
  | nil =>
    induction t with
    | nil => exact .nil
    | cons c t iht =>
      cases hc : isAsciiSpace c.toNat with
      | true => exact .insert hc (iht (by simpa [hc] using h))
      | false => simp [hc] at h
  | cons b s ihs =>
    cases hb : isAsciiSpace b.toNat with
    | true => exact .delete hb (ihs (by simpa [hb] using h))
    | false =>
      -- The next byte of `t` that is kept has to be `b`.
      induction t with
      | nil => simp [hb] at h
      | cons c t iht =>
        cases hc : isAsciiSpace c.toNat with
        | true => exact .insert hc (iht (by simpa [hc] using h))
        | false =>
          obtain ⟨rfl, hrest⟩ : b = c ∧ _ := by simpa [hb, hc] using h
          exact .keep b (ihs hrest)

instance : DecidableRel Respaced := fun _ _ => decidable_of_iff' _ respaced_iff

/-- Spacing is lost in compaction. -/
theorem Respaced.compact_eq (h : Respaced s t) (hs : Utf8.isValid s = true)
    (ht : Utf8.isValid t = true) : compact s = compact t := by
  rw [compact_eq_filter hs, compact_eq_filter ht, h.filter_eq]

end Text

end ScanTriage
