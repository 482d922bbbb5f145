import ScanTriage.Number.Decimal

/-!
# Decimal numerals

What `Bytes.decimalInt64` writes: digits without a leading zero, whose value is
the number. The readers of whole numbers get the number back from them
(`readDecimal_decimalInt64`, `IsNumeral.readWrapping?`). What `readDecimal` reads
are digits behind an optional sign, zeros in front included (`readDecimal_eq_ok`);
what it refuses is too large for 64 bits or none of that (`readDecimal_eq_error`).
-/

namespace ScanTriage

namespace Bytes

/-- The value of digits in front of which `v` was read. -/
def digitsValue (v : Nat) (s : Bytes) : Nat := s.foldl (fun v b => v * 10 + (b.toNat - 0x30)) v

/-! ## Digits -/

theorem decimalDigits_acc (fuel n : Nat) (acc : Bytes) :
    decimalDigits fuel n acc = decimalDigits fuel n [] ++ acc := by
  induction fuel generalizing n acc with
  | zero => rfl
  | succ fuel ih =>
    simp only [decimalDigits]
    split
    · rfl
    · rw [ih, ih (n / 10) [_]]
      simp

theorem decimalDigits_fuel {fuel n : Nat} (h : n < fuel) : decimalDigits fuel n [] = decimal n := by
  have hfuel : ∀ fuel' n : Nat, n < fuel' → ∀ fuel, n < fuel →
      decimalDigits fuel n [] = decimalDigits fuel' n [] := by
    intro fuel'
    induction fuel' with
    | zero => intro n h; omega
    | succ fuel' ih =>
      intro n h fuel hfuel
      obtain ⟨fuel, rfl⟩ : ∃ k, fuel = k + 1 := ⟨fuel - 1, by omega⟩
      simp only [decimalDigits]
      split
      · rfl
      · rw [decimalDigits_acc, decimalDigits_acc fuel', ih (n / 10) (by omega) fuel (by omega)]
  exact hfuel (n + 1) n (by omega) fuel h

/-- The last digit stands after the numeral of the tens. -/
theorem decimal_eq (n : Nat) :
    decimal n = (if n < 10 then [] else decimal (n / 10)) ++ [UInt8.ofNat (0x30 + n % 10)] := by
  rw [decimal, decimalDigits]
  split
  · rfl
  · rw [decimalDigits_acc, decimalDigits_fuel (by omega)]

theorem decimal_ne_nil (n : Nat) : decimal n ≠ [] := by
  rw [decimal_eq]
  simp

theorem digit_toNat (n : Nat) : (UInt8.ofNat (0x30 + n % 10)).toNat = 0x30 + n % 10 :=
  UInt8.toNat_ofNat_of_lt' (show _ < 256 by omega)

theorem isDigit_iff {b : UInt8} : isDigit b = true ↔ 0x30 ≤ b.toNat ∧ b.toNat ≤ 0x39 := by
  simp [isDigit, UInt8.le_iff_toNat_le]

theorem isDigit_decimal (n : Nat) : ∀ b ∈ decimal n, isDigit b = true := by
  induction n using Nat.strongRecOn with
  | _ n ih =>
  intro b hb
  rw [decimal_eq, List.mem_append, List.mem_singleton] at hb
  rcases hb with hb | rfl
  · split at hb
    · cases hb
    · exact ih (n / 10) (by omega) b hb
  · have := digit_toNat n
    rw [isDigit_iff]
    omega

theorem digitsValue_decimal (n : Nat) : digitsValue 0 (decimal n) = n := by
  induction n using Nat.strongRecOn with
  | _ n ih =>
  have hdigit := digit_toNat n
  rw [decimal_eq, digitsValue, List.foldl_append]
  split
  · simp only [List.foldl_cons, List.foldl_nil, hdigit]
    omega
  · have htens := ih (n / 10) (by omega)
    rw [digitsValue] at htens
    simp only [List.foldl_cons, List.foldl_nil, hdigit, htens]
    omega

/-- The first digit of a positive number is not zero. -/
theorem decimal_head {n : Nat} (hn : 0 < n) :
    ∃ b s, decimal n = b :: s ∧ isDigit b = true ∧ b ≠ zero := by
  induction n using Nat.strongRecOn with
  | _ n ih =>
  have hdigit := digit_toNat n
  rw [decimal_eq]
  split
  · refine ⟨_, [], rfl, by rw [isDigit_iff]; omega, ?_⟩
    intro h
    have hzero : zero.toNat = 0x30 := rfl
    rw [h] at hdigit
    omega
  · obtain ⟨b, s, hs, hb, hne⟩ := ih (n / 10) (by omega) (by omega)
    exact ⟨b, s ++ [_], by rw [hs]; rfl, hb, hne⟩

theorem decimal_zero : decimal 0 = [zero] := by decide

theorem length_decimal_le {k n : Nat} (hk : 0 < k) (hn : n < 10 ^ k) :
    (decimal n).length ≤ k := by
  induction k generalizing n with
  | zero => omega
  | succ k ih =>
    rw [decimal_eq]
    split
    · simp
    · have hk : 0 < k := by
        rcases Nat.eq_zero_or_pos k with rfl | hk
        · omega
        · exact hk
      have := ih (n := n / 10) hk (by rw [Nat.pow_succ] at hn; omega)
      simp only [List.length_append, List.length_singleton]
      omega

theorem decimalInt64_ofNat {n : Nat} (h : n < 2 ^ 63) :
    decimalInt64 (Int64.ofNat n) = decimal n := by
  rw [decimalInt64, Int64.toInt_ofNat_of_lt h]
  rfl

end Bytes

/-! ## Reading integers -/

namespace Integer

open Bytes

variable {s : Bytes}

theorem digitValue?_of_isDigit {b : UInt8} (hb : isDigit b = true) :
    digitValue? b = some (b.toNat - 0x30) := by
  simp [digitValue?, hb]

theorem le_digitsValue (v : Nat) (s : Bytes) : v ≤ digitsValue v s := by
  induction s generalizing v with
  | nil => exact Nat.le_refl v
  | cons b s ih =>
    have := ih (v * 10 + (b.toNat - 0x30))
    simp only [digitsValue, List.foldl_cons] at this ⊢
    omega

/-- Digits are taken one by one, as long as their value fits into 64 bits. -/
theorem readDigits_cons (b : UInt8) (s : Bytes) (v : Nat) :
    readDigits 10 false (b :: s) v =
      if isDigit b then
        if 2 ^ 64 ≤ v * 10 + (b.toNat - 0x30) then .error .range
        else readDigits 10 false s (v * 10 + (b.toNat - 0x30))
      else .error .form := by
  rw [readDigits, if_neg (by simp)]
  by_cases hb : isDigit b = true
  · have hdigit := isDigit_iff.mp hb
    have hbase : ¬ 10 ≤ b.toNat - 0x30 := by omega
    rw [digitValue?_of_isDigit hb, if_pos hb]
    exact if_neg hbase
  · rw [if_neg hb]
    cases hd : digitValue? b with
    | none => rfl
    | some d =>
      have hbase : 10 ≤ d := by
        rw [digitValue?, if_neg hb] at hd
        grind
      exact if_pos hbase

theorem digitsValue_cons (v : Nat) (b : UInt8) (s : Bytes) :
    digitsValue v (b :: s) = digitsValue (v * 10 + (b.toNat - 0x30)) s := by
  rw [digitsValue, digitsValue, List.foldl_cons]

theorem readDigits_digits (hs : ∀ b ∈ s, isDigit b = true) {v : Nat}
    (hv : digitsValue v s < 2 ^ 64) : readDigits 10 false s v = .ok (digitsValue v s) := by
  induction s generalizing v with
  | nil => rfl
  | cons b s ih =>
    obtain ⟨hb, hs⟩ := List.forall_mem_cons.mp hs
    rw [digitsValue_cons] at hv
    have hle := le_digitsValue (v * 10 + (b.toNat - 0x30)) s
    rw [readDigits_cons, if_pos hb, if_neg (by omega)]
    exact ih hs hv

theorem splitSign_digits (hs : ∀ b ∈ s, isDigit b = true) : splitSign s = (false, s) := by
  cases s with
  | nil => rfl
  | cons b s =>
    have hb := hs b (List.mem_cons_self ..)
    unfold splitSign
    split
    · next h => cases h; exact absurd hb (by decide)
    · next h => cases h; exact absurd hb (by decide)
    · rfl

theorem decimalInt64_cases (n : Int64) :
    (∃ k < 2 ^ 63, n = Int64.ofNat k ∧ decimalInt64 n = decimal k) ∨
      ∃ k : Nat, k ≤ 2 ^ 63 ∧ 0 < k ∧ n = Int64.ofInt (-k) ∧
        decimalInt64 n = minus :: decimal k := by
  have hlow := Int64.le_toInt n
  have hhigh := Int64.toInt_lt n
  cases hn : n.toInt with
  | ofNat k =>
    rw [hn, Int.ofNat_eq_natCast] at hhigh
    refine .inl ⟨k, by omega, ?_, by rw [decimalInt64, hn]; rfl⟩
    rw [← Int64.ofInt_toInt n, hn]
    exact Int64.ofInt_eq_ofNat
  | negSucc k =>
    refine .inr ⟨k + 1, by omega, by omega, ?_, by rw [decimalInt64, hn]; rfl⟩
    rw [← Int64.ofInt_toInt n, hn]
    rfl

theorem readDecimal_decimalInt64 (n : Int64) : readDecimal (decimalInt64 n) = .ok n := by
  have hdigits : ∀ k ≤ 2 ^ 63, readDigits 10 false (decimal k) 0 = .ok k := by
    intro k hk
    have hvalue := digitsValue_decimal k
    rw [readDigits_digits (isDigit_decimal k) (by omega), hvalue]
  rcases decimalInt64_cases n with ⟨k, hk, rfl, hn⟩ | ⟨k, hk, hpos, rfl, hn⟩
  · rw [hn, readDecimal, splitSign_digits (isDigit_decimal k)]
    split
    · next heq => exact absurd (Prod.mk.inj heq).2 (decimal_ne_nil k)
    · next heq =>
      obtain ⟨rfl, rfl⟩ := Prod.mk.inj heq
      rw [hdigits k (by omega)]
      exact if_pos hk
  · rw [hn, readDecimal]
    split
    · next heq => exact absurd (Prod.mk.inj heq).2 (decimal_ne_nil k)
    · next heq =>
      obtain ⟨rfl, rfl⟩ := Prod.mk.inj heq
      rw [hdigits k hk]
      exact if_pos hk

theorem foldl_ofNat (v : Nat) (s : Bytes) :
    s.foldl (fun n b => n * 10 + Int64.ofNat (b.toNat - 0x30)) (Int64.ofNat v) =
      Int64.ofNat (digitsValue v s) := by
  induction s generalizing v with
  | nil => rfl
  | cons b s ih =>
    have hten : (10 : Int64) = Int64.ofNat 10 := rfl
    rw [List.foldl_cons, hten, ← Int64.ofNat_mul, ← Int64.ofNat_add, ← hten, ih]
    rfl

/-- A whole number in digits without leading zeros, behind a minus sign or not. -/
inductive IsNumeral : Bytes → Int → Prop
  | plain (k : Nat) : IsNumeral (decimal k) k
  | minus (k : Nat) : IsNumeral (Bytes.minus :: decimal k) (-k)

theorem IsNumeral.ne_nil {s : Bytes} {n : Int} (h : IsNumeral s n) : s ≠ [] := by
  cases h with
  | plain k => exact decimal_ne_nil k
  | minus k => exact List.cons_ne_nil _ _

/-- A numeral stands for one number. -/
theorem IsNumeral.unique {s : Bytes} {m n : Int} (hm : IsNumeral s m) (hn : IsNumeral s n) :
    m = n := by
  have hminus : ∀ j k, decimal j ≠ Bytes.minus :: decimal k := by
    intro j k h
    exact absurd (isDigit_decimal j Bytes.minus (by simp [h])) (by decide)
  have hinj : ∀ j k, decimal j = decimal k → j = k := by
    intro j k h
    rw [← digitsValue_decimal j, h, digitsValue_decimal]
  generalize hs : s = t at hn
  cases hm with
  | plain j =>
    cases hn with
    | plain k => rw [hinj j k hs]
    | minus k => exact absurd hs (hminus j k)
  | minus j =>
    cases hn with
    | plain k => exact absurd hs.symm (hminus k j)
    | minus k => rw [hinj j k (List.cons.inj hs).2]

theorem isNumeral_decimalInt64 (n : Int64) : IsNumeral (decimalInt64 n) n.toInt := by
  rcases decimalInt64_cases n with ⟨k, hk, hvalue, hn⟩ | ⟨k, hk, -, hvalue, hn⟩ <;> rw [hn]
  · have hvalue : n.toInt = k := by rw [hvalue, Int64.toInt_ofNat_of_lt (by omega)]
    rw [hvalue]
    exact .plain k
  · have hvalue : n.toInt = -k := by
      rw [hvalue, Int64.toInt_ofInt_of_le (by omega) (by omega)]
    rw [hvalue]
    exact .minus k

/-- A numeral is read modulo `2 ^ 64`. -/
theorem IsNumeral.readWrapping? {s : Bytes} {n : Int} (h : IsNumeral s n) :
    readWrapping? s = some (Int64.ofInt n) := by
  have hall : ∀ k, (decimal k).all isDigit = true := fun k =>
    List.all_eq_true.mpr (isDigit_decimal k)
  have hempty : ∀ k, (decimal k).isEmpty = false := fun k => by
    simpa using decimal_ne_nil k
  have hfold : ∀ k, (decimal k).foldl (fun n b => n * 10 + Int64.ofNat (b.toNat - 0x30)) 0 =
      Int64.ofNat k := by
    intro k
    exact (foldl_ofNat 0 (decimal k)).trans (congrArg Int64.ofNat (digitsValue_decimal k))
  cases h with
  | plain k =>
    have hsign : ∀ rest, decimal k = Bytes.minus :: rest → False := by
      intro rest h
      have hminus := isDigit_decimal k Bytes.minus (by simp [h])
      exact absurd hminus (by decide)
    rw [readWrapping?.eq_2 _ hsign]
    simp [hall, hempty, hfold, Int64.ofInt_eq_ofNat]
  | minus k =>
    refine (readWrapping?.eq_1 _).trans ?_
    simp only [hall, hempty, hfold, Bool.not_true, Bool.or_self, Bool.false_eq_true, if_false,
      if_true, Int64.neg_ofNat]

/-- Digits are read as their value if it fits into 64 bits, and nothing else is read. -/
theorem readDigits_eq_ok {v m : Nat} (hv : v < 2 ^ 64) :
    readDigits 10 false s v = .ok m ↔
      (∀ b ∈ s, isDigit b = true) ∧ digitsValue v s = m ∧ m < 2 ^ 64 := by
  refine ⟨fun h => ?_, fun ⟨hs, hvalue, hm⟩ => by rw [readDigits_digits hs (by omega), hvalue]⟩
  induction s generalizing v with
  | nil =>
    cases h
    exact ⟨List.forall_mem_nil _, rfl, hv⟩
  | cons b s ih =>
    rw [readDigits_cons] at h
    split at h
    · next hb =>
      split at h
      · cases h
      · obtain ⟨hs, hvalue, hm⟩ := ih (by omega) h
        exact ⟨List.forall_mem_cons.mpr ⟨hb, hs⟩, hvalue, hm⟩
    · cases h

/-- A front of the digits is too large already. -/
theorem readDigits_eq_range {v : Nat} (hv : v < 2 ^ 64) :
    readDigits 10 false s v = .error .range ↔
      ∃ front back, s = front ++ back ∧ (∀ b ∈ front, isDigit b = true) ∧
        2 ^ 64 ≤ digitsValue v front := by
  induction s generalizing v with
  | nil =>
    refine ⟨nofun, ?_⟩
    rintro ⟨front, back, hs, -, hlarge⟩
    obtain ⟨rfl, -⟩ := List.append_eq_nil_iff.mp hs.symm
    exact absurd hlarge (Nat.not_le.mpr hv)
  | cons b s ih =>
    rw [readDigits_cons]
    constructor
    · intro h
      split at h
      · next hb =>
        split at h
        · next hlarge => exact ⟨[b], s, rfl, by simpa using hb, hlarge⟩
        · obtain ⟨front, back, rfl, hfront, hlarge⟩ := (ih (by omega)).mp h
          exact ⟨b :: front, back, rfl, List.forall_mem_cons.mpr ⟨hb, hfront⟩, hlarge⟩
      · cases h
    · rintro ⟨front, back, hs, hfront, hlarge⟩
      cases front with
      | nil => exact absurd hlarge (Nat.not_le.mpr hv)
      | cons c front =>
        obtain ⟨rfl, rfl⟩ := List.cons.inj hs
        obtain ⟨hb, hfront⟩ := List.forall_mem_cons.mp hfront
        rw [if_pos hb]
        split
        · rfl
        · exact (ih (by omega)).mpr ⟨front, back, rfl, hfront, hlarge⟩

theorem signed_eq_ok {negative : Bool} {m : Nat} {n : Int64} :
    signed negative m = .ok n ↔ n.toInt = if negative then -(m : Int) else m := by
  have hlow := Int64.le_toInt n
  have hhigh := Int64.toInt_lt n
  unfold signed
  cases negative with
  | true =>
    simp only [if_true]
    refine ⟨fun h => ?_, fun h => ?_⟩
    · split at h
      · next hm =>
        cases h
        exact Int64.toInt_ofInt_of_le (by omega) (by omega)
      · cases h
    · rw [if_pos (by omega), ← h, Int64.ofInt_toInt]
  | false =>
    simp only [Bool.false_eq_true, if_false]
    refine ⟨fun h => ?_, fun h => ?_⟩
    · split at h
      · next hm =>
        cases h
        exact Int64.toInt_ofNat_of_lt hm
      · cases h
    · rw [if_pos (by omega), ← Int64.ofInt_eq_ofNat, ← h, Int64.ofInt_toInt]

/-- A whole number in digits, behind a sign or not. -/
inductive IsInteger : Bytes → Int → Prop
  | plain {digits : Bytes} (hne : digits ≠ []) (hdigits : ∀ b ∈ digits, isDigit b = true) :
    IsInteger digits (digitsValue 0 digits)
  | plus {digits : Bytes} (hne : digits ≠ []) (hdigits : ∀ b ∈ digits, isDigit b = true) :
    IsInteger (Bytes.plus :: digits) (digitsValue 0 digits)
  | minus {digits : Bytes} (hne : digits ≠ []) (hdigits : ∀ b ∈ digits, isDigit b = true) :
    IsInteger (Bytes.minus :: digits) (-digitsValue 0 digits)

/-- What is read behind a sign. -/
theorem readUnsigned_eq_ok {negative : Bool} {n : Int64} :
    (readDigits 10 false s 0 >>= signed negative) = .ok n ↔
      (∀ b ∈ s, isDigit b = true) ∧
        n.toInt = if negative then -(digitsValue 0 s : Int) else digitsValue 0 s := by
  have hlow := Int64.le_toInt n
  have hhigh := Int64.toInt_lt n
  refine ⟨fun h => ?_, fun ⟨hs, hn⟩ => ?_⟩
  · cases hread : readDigits 10 false s 0 with
    | error why =>
      rw [hread] at h
      cases h
    | ok m =>
      obtain ⟨hs, rfl, -⟩ := (readDigits_eq_ok (by decide)).mp hread
      rw [hread] at h
      exact ⟨hs, signed_eq_ok.mp h⟩
  · have hfits : digitsValue 0 s < 2 ^ 64 := by
      split at hn <;> omega
    rw [readDigits_digits hs hfits]
    exact signed_eq_ok.mpr hn

theorem isInteger_iff {n : Int} :
    IsInteger s n ↔ (splitSign s).2 ≠ [] ∧ (∀ b ∈ (splitSign s).2, isDigit b = true) ∧
      n = if (splitSign s).1 then -(digitsValue 0 (splitSign s).2 : Int)
        else digitsValue 0 (splitSign s).2 := by
  refine ⟨fun h => ?_, ?_⟩
  · cases h with
    | plain hne hdigits =>
      rw [splitSign_digits hdigits]
      exact ⟨hne, hdigits, rfl⟩
    | plus hne hdigits => exact ⟨hne, hdigits, rfl⟩
    | minus hne hdigits => exact ⟨hne, hdigits, rfl⟩
  · unfold splitSign
    split
    · rintro ⟨hne, hdigits, rfl⟩
      exact .minus hne hdigits
    · rintro ⟨hne, hdigits, rfl⟩
      exact .plus hne hdigits
    · rintro ⟨hne, hdigits, rfl⟩
      exact .plain hne hdigits

/-- A numeral is read as the integer that it stands for, if that fits into 64 bits;
nothing else is read. -/
theorem readDecimal_eq_ok {n : Int64} : readDecimal s = .ok n ↔ IsInteger s n.toInt := by
  rw [isInteger_iff, ← readUnsigned_eq_ok, readDecimal]
  split
  · next negative h => simp [h]
  · next negative digits hne h =>
    rw [h]
    exact ⟨fun hread => ⟨hne, hread⟩, fun hread => hread.2⟩

/-- A numeral is too large for 64 bits, with its sign or, from some front of it on,
whatever its sign. -/
def Exceeds (s : Bytes) : Prop :=
  ∃ front back n, s = front ++ back ∧ IsInteger front n ∧
    (2 ^ 64 ≤ n.natAbs ∨ back = [] ∧ (n < -2 ^ 63 ∨ 2 ^ 63 ≤ n))

/-- What is wrong with a numeral. -/
def Refuses (s : Bytes) : Refusal → Prop
  | .range => Exceeds s
  | .form => ¬ Exceeds s ∧ ∀ n, ¬ IsInteger s n

theorem splitSign_append {n : Int} (h : IsInteger s n) (back : Bytes) :
    splitSign (s ++ back) = ((splitSign s).1, (splitSign s).2 ++ back) := by
  cases h with
  | plain hne hdigits =>
    rw [splitSign_digits hdigits]
    obtain ⟨b, rest, rfl⟩ := List.exists_cons_of_ne_nil hne
    have hb := isDigit_iff.mp (hdigits b List.mem_cons_self)
    refine splitSign.eq_3 _ ?_ ?_
    · rintro rest' ⟨⟩
      exact absurd hb (by decide)
    · rintro rest' ⟨⟩
      exact absurd hb (by decide)
  | plus | minus => rfl

/-- A front that is an integer is one behind the sign. -/
theorem exists_front_iff :
    (∃ front back n, s = front ++ back ∧ IsInteger front n ∧ 2 ^ 64 ≤ n.natAbs) ↔
      ∃ front back, (splitSign s).2 = front ++ back ∧ (∀ b ∈ front, isDigit b = true) ∧
        2 ^ 64 ≤ digitsValue 0 front := by
  constructor
  · rintro ⟨front, back, n, rfl, hfront, hlarge⟩
    obtain ⟨-, hdigits, hn⟩ := isInteger_iff.mp hfront
    rw [splitSign_append hfront]
    refine ⟨_, back, rfl, hdigits, ?_⟩
    split at hn <;> omega
  · rintro ⟨front, back, hs, hdigits, hlarge⟩
    have hne : front ≠ [] := by
      rintro rfl
      exact absurd hlarge (by decide)
    unfold splitSign at hs
    split at hs
    · exact ⟨Bytes.minus :: front, back, _, congrArg _ hs, .minus hne hdigits, by omega⟩
    · exact ⟨Bytes.plus :: front, back, _, congrArg _ hs, .plus hne hdigits, by omega⟩
    · exact ⟨front, back, _, hs, .plain hne hdigits, by omega⟩

theorem exceeds_iff : Exceeds s ↔
    (∃ front back, (splitSign s).2 = front ++ back ∧ (∀ b ∈ front, isDigit b = true) ∧
      2 ^ 64 ≤ digitsValue 0 front) ∨ ∃ n, IsInteger s n ∧ (n < -2 ^ 63 ∨ 2 ^ 63 ≤ n) := by
  rw [← exists_front_iff]
  constructor
  · rintro ⟨front, back, n, rfl, hfront, hlarge | ⟨rfl, hlarge⟩⟩
    · exact .inl ⟨front, back, n, rfl, hfront, hlarge⟩
    · exact .inr ⟨n, by rwa [List.append_nil], hlarge⟩
  · rintro (⟨front, back, n, hs, hfront, hlarge⟩ | ⟨n, hs, hlarge⟩)
    · exact ⟨front, back, n, hs, hfront, .inl hlarge⟩
    · exact ⟨s, [], n, (List.append_nil s).symm, hs, .inr ⟨rfl, hlarge⟩⟩

theorem signed_eq_range {negative : Bool} {m : Nat} :
    signed negative m = .error .range ↔
      ∃ n : Int, n = (if negative then -(m : Int) else m) ∧ (n < -2 ^ 63 ∨ 2 ^ 63 ≤ n) := by
  unfold signed
  cases negative with
  | true =>
    simp only [if_true, exists_eq_left]
    split
    · exact ⟨nofun, fun h => absurd h (by omega)⟩
    · exact ⟨fun _ => .inl (by omega), fun _ => rfl⟩
  | false =>
    simp only [Bool.false_eq_true, if_false, exists_eq_left]
    split
    · exact ⟨nofun, fun h => absurd h (by omega)⟩
    · exact ⟨fun _ => .inr (by omega), fun _ => rfl⟩

/-- What is out of range behind a sign. -/
theorem readUnsigned_eq_range {negative : Bool} :
    (readDigits 10 false s 0 >>= signed negative) = .error .range ↔
      readDigits 10 false s 0 = .error .range ∨ (∀ b ∈ s, isDigit b = true) ∧
        ∃ n : Int, n = (if negative then -(digitsValue 0 s : Int) else digitsValue 0 s) ∧
          (n < -2 ^ 63 ∨ 2 ^ 63 ≤ n) := by
  have hzero : 0 < 2 ^ 64 := by decide
  cases hread : readDigits 10 false s 0 with
  | error why =>
    refine ⟨fun h => .inl (by cases h; rfl), fun h => ?_⟩
    suffices hwhy : why = .range by rw [hwhy]; rfl
    rcases h with h | ⟨hs, -⟩
    · exact Except.error.inj h
    by_cases hsmall : digitsValue 0 s < 2 ^ 64
    · rw [readDigits_digits hs hsmall] at hread
      cases hread
    · have hrange := (readDigits_eq_range hzero).mpr
        ⟨s, [], (List.append_nil s).symm, hs, Nat.not_lt.mp hsmall⟩
      exact Except.error.inj (hread.symm.trans hrange)
  | ok m =>
    obtain ⟨hs, rfl, -⟩ := (readDigits_eq_ok hzero).mp hread
    refine signed_eq_range.trans ⟨fun h => .inr ⟨hs, h⟩, fun h => ?_⟩
    rcases h with h | ⟨-, h⟩
    · cases h
    · exact h

theorem readDecimal_eq_range : readDecimal s = .error .range ↔ Exceeds s := by
  have hfront := readDigits_eq_range (s := (splitSign s).2) (v := 0) (by decide)
  simp only [exceeds_iff, ← hfront, isInteger_iff]
  rw [readDecimal]
  split
  · next negative h => simp [h, readDigits]
  · next negative digits hne h =>
    rw [h, readUnsigned_eq_range]
    refine or_congr_right ⟨?_, ?_⟩
    · rintro ⟨hs, n, hn, hlarge⟩
      exact ⟨n, ⟨hne, hs, hn⟩, hlarge⟩
    · rintro ⟨n, ⟨-, hs, hn⟩, hlarge⟩
      exact ⟨hs, n, hn, hlarge⟩

theorem readDecimal_eq_error {why : Refusal} : readDecimal s = .error why ↔ Refuses s why := by
  cases why with
  | range => exact readDecimal_eq_range
  | form =>
    rw [Refuses, ← readDecimal_eq_range]
    constructor
    · intro h
      refine ⟨by simp [h], fun n hn => ?_⟩
      by_cases hsmall : -2 ^ 63 ≤ n ∧ n < 2 ^ 63
      · have hread : readDecimal s = .ok (Int64.ofInt n) := by
          rw [readDecimal_eq_ok, Int64.toInt_ofInt_of_le (by omega) (by omega)]
          exact hn
        cases h.symm.trans hread
      · have hrange := readDecimal_eq_range.mpr
          ⟨s, [], n, (List.append_nil s).symm, hn, .inr ⟨rfl, by omega⟩⟩
        cases h.symm.trans hrange
    · rintro ⟨hrange, hall⟩
      cases hread : readDecimal s with
      | ok n => exact absurd (readDecimal_eq_ok.mp hread) (hall _)
      | error why =>
        cases why with
        | form => rfl
        | range => exact absurd hread hrange

end Integer

end ScanTriage
