import ScanTriage.Json.Glimpse
import ScanTriage.Proofs.Number.Numerals

/-!
# Whole numbers through floating point

The tolerant reader takes a number from its floating-point value while that is
surely exact, and from its digits otherwise. A whole number below `2 ^ 53` is
its own floating-point value (`ofRatio_small`), and one from there on is rounded
to a value that does not count as exact (`isLarge_ofRatio`). Either way the number
comes back modulo `2 ^ 64` (`numberToInt_numeral`).
-/

namespace ScanTriage

namespace Binary64

variable {k : Nat} {negative : Bool}

theorem roundDiv_one (n : Nat) : roundDiv n 1 = n := by
  simp [roundDiv, Nat.mod_one]

theorem le_roundDiv (n d : Nat) : n / d ≤ roundDiv n d := by
  simp only [roundDiv]
  split <;> omega

theorem scaled_neg (n d j : Nat) : scaled n d (-(j : Int)) = (n * 2 ^ j, d) := by
  cases j with
  | zero => simp [scaled]
  | succ j => rfl

theorem ratio_neg (m j : Nat) : ratio m (-(j : Int)) = (m, 2 ^ j) := by
  cases j with
  | zero => simp [ratio]
  | succ j => rfl

/-- The bit length decides on the exponent. -/
theorem fittingExponent_one {e : Int} (he : e = (k.log2 : Int) - 52) (hlow : -1074 ≤ e)
    (hdigits : 2 ^ 52 ≤ (scaled k 1 e).1 / (scaled k 1 e).2) : fittingExponent k 1 = e := by
  have hlog : Nat.log2 1 = 0 := by decide
  have he' : (k.log2 : Int) - (Nat.log2 1 : Int) - 52 = e := by omega
  simp only [fittingExponent, he', if_neg (Nat.not_lt.mpr hdigits)]
  exact Int.max_eq_left hlow

/-- At 53 binary digits, a number below `2 ^ 53` is shifted to the left. -/
theorem ofRatio_small (hk : 0 < k) (hsmall : k < 2 ^ 53) :
    ofRatio negative k 1 =
      finite negative (k * 2 ^ (52 - k.log2)) (-((52 - k.log2 : Nat) : Int)) := by
  have hlog : k.log2 < 53 := (Nat.log2_lt (by omega)).mpr hsmall
  have hlow : 2 ^ 52 ≤ k * 2 ^ (52 - k.log2) := by
    calc 2 ^ 52 = 2 ^ k.log2 * 2 ^ (52 - k.log2) := by rw [← Nat.pow_add]; congr 1; omega
      _ ≤ k * 2 ^ (52 - k.log2) := Nat.mul_le_mul_right _ (Nat.log2_self_le (by omega))
  have hhigh : k * 2 ^ (52 - k.log2) < 2 ^ 53 := by
    calc k * 2 ^ (52 - k.log2) < 2 ^ (k.log2 + 1) * 2 ^ (52 - k.log2) :=
          Nat.mul_lt_mul_of_pos_right Nat.lt_log2_self (Nat.two_pow_pos _)
      _ = 2 ^ 53 := by rw [← Nat.pow_add]; congr 1; omega
  have hscaled := scaled_neg k 1 (52 - k.log2)
  have hfit : fittingExponent k 1 = -((52 - k.log2 : Nat) : Int) :=
    fittingExponent_one (by omega) (by omega) (by rw [hscaled, Nat.div_one]; exact hlow)
  have hzero : (k == 0) = false := by simp; omega
  have hq : (k * 2 ^ (52 - k.log2) == 2 ^ 53) = false := by simp; omega
  have hq' : (k * 2 ^ (52 - k.log2) == 0) = false := by simp; omega
  have he : ¬ 971 < -((52 - k.log2 : Nat) : Int) := by omega
  simp only [ofRatio, hfit, hscaled, roundDiv_one, hzero, hq, hq', he, Bool.false_eq_true, if_false]

/-- A value whose magnitude is at least `2 ^ 53`. -/
def IsLarge (x : Binary64) : Prop :=
  match x with
  | finite _ q e => ∃ j : Nat, e = j ∧ 2 ^ 53 ≤ q * 2 ^ j
  | infinite _ => True
  | nan => False

theorem isLarge_ofRatio (hlow : 2 ^ 53 ≤ k) : IsLarge (ofRatio negative k 1) := by
  have hlog : 53 ≤ k.log2 := (Nat.le_log2 (by omega)).mpr hlow
  obtain ⟨e, he⟩ : ∃ e, k.log2 = e + 53 := ⟨k.log2 - 53, by omega⟩
  have hpow : 2 ^ 52 * 2 ^ (e + 1) = 2 ^ k.log2 := by rw [← Nat.pow_add]; congr 1; omega
  have hscaled : scaled k 1 ((e + 1 : Nat) : Int) = (k, 2 ^ (e + 1)) := by
    simp [scaled]
  have hdiv : 2 ^ 52 ≤ k / 2 ^ (e + 1) := by
    rw [Nat.le_div_iff_mul_le (Nat.two_pow_pos _), hpow]
    exact Nat.log2_self_le (by omega)
  have hfit : fittingExponent k 1 = ((e + 1 : Nat) : Int) :=
    fittingExponent_one (by omega) (by omega) (by rw [hscaled]; exact hdiv)
  have hround := le_roundDiv k (2 ^ (e + 1))
  have hzero : (k == 0) = false := by simp; omega
  have hscale : 2 ^ 53 ≤ 2 ^ 52 * 2 ^ (e + 1) := by
    rw [← Nat.pow_add]
    exact Nat.pow_le_pow_right (by decide) (by omega)
  simp only [ofRatio, hfit, hscaled, hzero, Bool.false_eq_true, if_false]
  by_cases hq : roundDiv k (2 ^ (e + 1)) = 2 ^ 53
  · have hq' : ((2 : Nat) ^ 52 == 0) = false := by decide
    simp only [hq, beq_self_eq_true, if_true, hq', Bool.false_eq_true, if_false]
    split
    · trivial
    · have hmono : 2 ^ (e + 1) ≤ 2 ^ (e + 2) := Nat.pow_le_pow_right (by decide) (by omega)
      exact ⟨e + 2, rfl, Nat.le_trans hscale (Nat.mul_le_mul_left _ hmono)⟩
  · have hq' : (roundDiv k (2 ^ (e + 1)) == 0) = false := by simp; omega
    simp only [beq_eq_false_iff_ne.mpr hq, hq', Bool.false_eq_true, if_false]
    split
    · trivial
    · exact ⟨e + 1, rfl, Nat.le_trans hscale (Nat.mul_le_mul_right _ (Nat.le_trans hdiv hround))⟩

end Binary64

/-! ## Reading numerals as floating-point values -/

namespace Decimal

open Bytes

variable {s : Bytes} {k : Nat} {negative : Bool}

theorem readMantissa_digits (hs : ∀ b ∈ s, isDigit b = true) (v places : Nat) (sawDigit : Bool) :
    readMantissa 10 s ⟨v, places, false, sawDigit⟩ =
      (⟨digitsValue v s, places, false, sawDigit || !s.isEmpty⟩, []) := by
  induction s generalizing v sawDigit with
  | nil => simp [readMantissa, digitsValue]
  | cons b s ih =>
    obtain ⟨hb, hs⟩ := List.forall_mem_cons.mp hs
    have hother : b ≠ underscore ∧ b ≠ dot := by
      constructor <;> rintro rfl <;> exact absurd hb (by decide)
    have hvalue : (digitValue? b).filter (· < 10) = some (b.toNat - 0x30) := by
      have := isDigit_iff.mp hb
      rw [Integer.digitValue?_of_isDigit hb, Option.filter_some_pos (by simp; omega)]
    simp [readMantissa, hother, hvalue, Mantissa.push, ih hs, digitsValue]

theorem lowerByte_digit {b : UInt8} (hb : isDigit b = true) : Text.lowerByte b = b := by
  have hupper : isUpper b = false := by grind [isDigit, isUpper]
  simp [Text.lowerByte, hupper]

theorem readUnsigned?_decimal (negative : Bool) (k : Nat) :
    readUnsigned? negative (decimal k) = some (ofDecimal negative k 0) := by
  have hdigits := isDigit_decimal k
  have hne : (decimal k).isEmpty = false := by simpa using decimal_ne_nil k
  have hread := readMantissa_digits hdigits
  unfold readUnsigned?
  split
  · next mark d more hk =>
    rw [hk] at hdigits
    have hmark := hdigits mark (by simp)
    have hx : (Text.lowerByte mark == 0x78) = false := by
      rw [lowerByte_digit hmark, beq_eq_false_iff_ne]
      rintro rfl
      exact absurd hmark (by decide)
    simp only [hx, hread, hne, digitsValue_decimal]
    rfl
  · simp only [hread, hne, digitsValue_decimal]
    rfl

theorem readWord?_digits {signed : Bool} (hs : ∀ b ∈ s, isDigit b = true) (hne : s ≠ []) :
    readWord? signed negative s = none := by
  have hword : ∀ w : Bytes, w.head?.all isDigit = false → (Text.lowerAscii s == w) = false := by
    intro w hw
    rw [beq_eq_false_iff_ne]
    rintro rfl
    cases s with
    | nil => exact hne rfl
    | cons b s =>
      have hb := hs b (List.mem_cons_self ..)
      have hlow : isDigit (Text.lowerByte b) = false := hw
      rw [lowerByte_digit hb, hb] at hlow
      cases hlow
  simp only [readWord?]
  rw [hword "inf" rfl, hword "infinity" rfl, hword "nan" rfl]
  rfl

theorem contains_underscore (hs : ∀ b ∈ s, isDigit b = true) : s.contains underscore = false := by
  rw [List.contains_eq_mem, decide_eq_false_iff_not]
  intro h
  exact absurd (hs _ h) (by decide)

theorem read?_decimal (k : Nat) : read? (decimal k) = some (ofDecimal false k 0) := by
  have hdigits := isDigit_decimal k
  simp only [read?, Integer.splitSign_digits hdigits, readWord?_digits hdigits (decimal_ne_nil k),
    contains_underscore hdigits, Bool.false_and, Bool.false_eq_true, if_false,
    readUnsigned?_decimal]

theorem read?_minus (k : Nat) : read? (minus :: decimal k) = some (ofDecimal true k 0) := by
  have hdigits := isDigit_decimal k
  have hsign : Integer.splitSign (minus :: decimal k) = (true, decimal k) := rfl
  have hunderscore : (minus :: decimal k).contains underscore = false := by
    rw [List.contains_cons, contains_underscore hdigits]
    rfl
  simp only [read?, hsign, readWord?_digits hdigits (decimal_ne_nil k), hunderscore,
    Bool.false_and, Bool.false_eq_true, if_false, readUnsigned?_decimal]

theorem ofDecimal_small (hk : 0 < k) (hsmall : k < 2 ^ 53) :
    ofDecimal negative k 0 = .ofRatio negative k 1 := by
  have hlen : (decimal k).length ≤ 20 :=
    length_decimal_le (by decide) (Nat.lt_trans hsmall (by decide))
  have hzero : (k == 0) = false := by simp; omega
  have hsize : ¬ 310 < ((decimal k).length : Int) + 0 := by omega
  have hsize' : ¬ ((decimal k).length : Int) + 0 < -330 := by omega
  simp only [ofDecimal, hzero, Bool.false_eq_true, if_false, hsize, hsize']
  change Binary64.ofRatio negative (k * 10 ^ 0) 1 = _
  rw [Nat.pow_zero, Nat.mul_one]

theorem isLarge_ofDecimal (hlow : 2 ^ 53 ≤ k) : (ofDecimal negative k 0).IsLarge := by
  have hzero : (k == 0) = false := by simp; omega
  have hsize : ¬ ((decimal k).length : Int) + 0 < -330 := by omega
  simp only [ofDecimal, hzero, Bool.false_eq_true, if_false, hsize]
  split
  · trivial
  · have hlarge := @Binary64.isLarge_ofRatio (k * 10 ^ 0) negative (by omega)
    exact hlarge

end Decimal

namespace Json.Glimpse

open Bytes

theorem ofInt_safeInteger : Binary64.ofInt safeInteger = .finite false 9007199254740991 0 := by
  decide +kernel

theorem ofInt_neg_safeInteger :
    Binary64.ofInt (-safeInteger) = .finite true 9007199254740991 0 := by
  decide +kernel

/-- A value is safe if its magnitude is, whatever its sign. -/
theorem isSafe_finite {negative : Bool} {m n d : Nat} {e : Int} (h : Binary64.ratio m e = (n, d)) :
    isSafe (.finite negative m e) = decide (n ≤ 9007199254740991 * d) := by
  have hsafe : Binary64.ratio 9007199254740991 0 = (9007199254740991, 1) := by decide
  simp only [isSafe, ofInt_safeInteger, ofInt_neg_safeInteger, Binary64.le, h, hsafe]
  rw [Bool.eq_iff_iff]
  cases negative <;> simp only [Bool.and_eq_true, decide_eq_true_eq, if_true, Bool.false_eq_true,
    if_false] <;> omega

theorem isSafe_small {k : Nat} {negative : Bool} (hk : 0 < k) (hsmall : k < 2 ^ 53) :
    isSafe (.ofRatio negative k 1) = true := by
  rw [Binary64.ofRatio_small hk hsmall, isSafe_finite (Binary64.ratio_neg ..), decide_eq_true_eq]
  exact Nat.mul_le_mul_right _ (by omega)

theorem clip_small {k : Nat} {negative : Bool} (hk : 0 < k) (hsmall : k < 2 ^ 53) :
    clip (.ofRatio negative k 1) = Int64.ofInt (if negative then -k else k) := by
  have hrange : ∀ n : Int, n.natAbs = k →
      (decide (-(2 ^ 63) ≤ n) && decide (n < 2 ^ 63)) = true := by
    intro n hn
    rw [Bool.and_eq_true, decide_eq_true_eq, decide_eq_true_eq]
    omega
  rw [Binary64.ofRatio_small hk hsmall]
  simp only [clip, Binary64.truncate?, Binary64.ratio_neg,
    Nat.mul_div_cancel _ (Nat.two_pow_pos (52 - k.log2))]
  cases negative
  · exact if_pos (hrange k (by omega))
  · exact if_pos (hrange (-k) (by omega))

theorem isSafe_large {x : Binary64} (hx : x.IsLarge) : isSafe x = false := by
  cases x with
  | finite negative q e =>
    obtain ⟨j, rfl, hle⟩ := hx
    have hratio : Binary64.ratio q j = (q * 2 ^ j, 1) := rfl
    rw [isSafe_finite hratio, decide_eq_false_iff_not]
    omega
  | infinite negative => rfl
  | nan => exact hx.elim

/-- Below `2 ^ 53` the floating-point value tells the number, from there on its digits do. -/
theorem numberToInt_of_float {raw : Bytes} {n : Int64} {k : Nat} {negative : Bool}
    (hn : n = Int64.ofInt (if negative then -k else k))
    (hfloat : float ⟨.number, raw⟩ = Decimal.ofDecimal negative k 0)
    (hwrapping : Integer.readWrapping? raw = some n) : numberToInt ⟨.number, raw⟩ = n := by
  simp only [numberToInt, hfloat]
  rcases Nat.eq_zero_or_pos k with rfl | hpos
  · have hzero : isSafe (Decimal.ofDecimal negative 0 0) = true ∧
        clip (Decimal.ofDecimal negative 0 0) = 0 := by
      cases negative <;> decide +kernel
    rw [if_pos hzero.1, hzero.2, hn]
    cases negative <;> rfl
  by_cases hsmall : k < 2 ^ 53
  · rw [Decimal.ofDecimal_small hpos hsmall, if_pos (isSafe_small hpos hsmall),
      clip_small hpos hsmall, hn]
  · have hlarge := isSafe_large
      (@Decimal.isLarge_ofDecimal k negative (Nat.le_of_not_lt hsmall))
    simp only [hlarge, Bool.false_eq_true, if_false, hwrapping]

/-- A whole number is read from its numeral modulo `2 ^ 64`. -/
theorem numberToInt_numeral {raw : Bytes} {n : Int} (h : Integer.IsNumeral raw n) :
    numberToInt ⟨.number, raw⟩ = Int64.ofInt n := by
  have hwrapping := h.readWrapping?
  cases h with
  | plain k =>
    have hfloat : float ⟨.number, decimal k⟩ = Decimal.ofDecimal false k 0 := by
      rw [float, Decimal.read?_decimal, Option.getD_some]
    exact numberToInt_of_float rfl hfloat hwrapping
  | minus k =>
    have hfloat : float ⟨.number, minus :: decimal k⟩ = Decimal.ofDecimal true k 0 := by
      rw [float, Decimal.read?_minus, Option.getD_some]
    exact numberToInt_of_float rfl hfloat hwrapping

theorem numberToInt_decimalInt64 (n : Int64) : numberToInt ⟨.number, decimalInt64 n⟩ = n := by
  rw [numberToInt_numeral (Integer.isNumeral_decimalInt64 n), Int64.ofInt_toInt]

end Json.Glimpse

end ScanTriage
