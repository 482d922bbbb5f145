import ScanTriage.Proofs.Sorting.Heap

/-!
# Quicksort sorts

A partition puts the pivot between items that are not greater and items that are not
less (`partition_spec`). So sorting both sides sorts a range whatever is known of it
from before (`sorts_sortRange`), and sorting a list gives a sorted list
(`pairwise_sort`).
-/

namespace ScanTriage

namespace Quicksort

variable {α : Type} {lt : α → α → Bool} {data data' data'' : Array α} {a b i j k m pivot : Nat}

/-! ## Pivots -/

theorem order2_of (lt : α → α → Bool) (data : Array α) {P : Nat → Prop} (hi : P i) (hj : P j)
    (swaps : Nat) :
    P (order2 lt data i j swaps).1 ∧ P (order2 lt data i j swaps).2.1 := by
  unfold order2
  split
  · exact ⟨hj, hi⟩
  · exact ⟨hi, hj⟩

theorem median_of {P : Nat → Prop} (hi : P i) (hj : P j) (hk : P k) (swaps : Nat) :
    P (median lt data i j k swaps).1 := by
  have hfirst := order2_of lt data hi hj swaps
  have hsecond := order2_of lt data hfirst.2 hk
  exact (order2_of lt data hfirst.1 (hsecond _).1 _).2

theorem choosePivot_mem (lt : α → α → Bool) (data : Array α) (h : maxInsertion < b - a) :
    a ≤ (choosePivot lt a b data).1 ∧ (choosePivot lt a b data).1 < b := by
  rw [maxInsertion] at h
  have haround : ∀ i swaps, a < i → i + 1 < b →
      let around := if shortestNinther ≤ b - a then median lt data (i - 1) i (i + 1) swaps
        else (i, swaps)
      a ≤ around.1 ∧ around.1 < b := by
    intro i swaps hi hib
    dsimp only
    split
    · exact median_of (P := fun k => a ≤ k ∧ k < b) (by omega) (by omega) (by omega) swaps
    · exact ⟨by omega, by omega⟩
  have hi := haround (a + (b - a) / 4) 0 (by omega) (by omega)
  have hj := fun swaps => haround (a + (b - a) / 4 * 2) swaps (by omega) (by omega)
  have hk := fun swaps => haround (a + (b - a) / 4 * 3) swaps (by omega) (by omega)
  exact median_of (P := fun k => a ≤ k ∧ k < b) hi (hj _) (hk _) _

theorem within_reverseRange (hb : b ≤ data.size) : Within a b data (reverseRange a b data) := by
  refine .foldl (fun i hi data hb => .swap ⟨?_, ?_⟩ ⟨?_, ?_⟩ hb) hb <;>
    have hi := List.mem_range.mp hi <;> omega

theorem within_scatter (h : maxInsertion < b - a) (hb : b ≤ data.size) :
    Within a b data (scatter a b data) := by
  rw [maxInsertion] at h
  have hbound : 2 ^ ((b - a).log2 + 1) ≤ 2 * (b - a) := by
    have hself := Nat.log2_self_le (n := b - a) (by omega)
    rw [Nat.pow_succ]
    omega
  have hstep : ∀ (random : UInt64) (i : Nat) (data : Array α), i ≤ 2 → b ≤ data.size →
      let other := random.toNat % 2 ^ ((b - a).log2 + 1)
      Within a b data (data.swapIfInBounds (a + (b - a) / 4 * 2 - 2 + i)
        (a + if b - a ≤ other then other - (b - a) else other)) := by
    intro random i data hi hb
    dsimp only
    have hother := Nat.mod_lt random.toNat (Nat.two_pow_pos ((b - a).log2 + 1))
    refine .swap ⟨by omega, by omega⟩ ⟨by omega, ?_⟩ hb
    split <;> omega
  have hfirst := hstep (nextRandom (.ofNat (b - a))) 0 data (by omega) hb
  have hsecond := hstep (nextRandom (nextRandom (.ofNat (b - a)))) 1 _ (by omega)
    (by rwa [hfirst.size])
  have hthird := hstep (nextRandom (nextRandom (nextRandom (.ofNat (b - a))))) 2 _ (by omega)
    (by rwa [hsecond.size, hfirst.size])
  exact hfirst.trans (hsecond.trans hthird)

/-! ## Partitions -/

theorem advance_spec (test : Nat → Bool) {fuel : Nat} (hfuel : j + 1 - i ≤ fuel) (hij : i ≤ j + 1) :
    i ≤ advance test j fuel i ∧ advance test j fuel i ≤ j + 1 ∧
      (∀ k, i ≤ k → k < advance test j fuel i → test k = true) ∧
      (advance test j fuel i ≤ j → test (advance test j fuel i) = false) := by
  induction fuel generalizing i with
  | zero =>
    rw [advance]
    exact ⟨Nat.le_refl i, hij, fun k hk hki => by omega, fun hi => by omega⟩
  | succ fuel ih =>
    rw [advance]
    split
    · next hcond =>
      obtain ⟨hi, htest⟩ := Bool.and_eq_true_iff.mp hcond
      have hi := of_decide_eq_true hi
      obtain ⟨hle, hge, hall, hstop⟩ := ih (i := i + 1) (by omega) (by omega)
      refine ⟨by omega, hge, fun k hk hki => ?_, hstop⟩
      by_cases hki' : k = i
      · rwa [hki']
      · exact hall k (by omega) hki
    · next hcond =>
      refine ⟨Nat.le_refl i, hij, fun k hk hki => by omega, fun hi => ?_⟩
      simpa [hi] using hcond

theorem retreat_spec (test : Nat → Bool) (hi : 0 < i) (hij : i ≤ j + 1) :
    retreat test i j ≤ j ∧ i ≤ retreat test i j + 1 ∧
      (∀ k, retreat test i j < k → k ≤ j → test k = true) ∧
      (i ≤ retreat test i j → test (retreat test i j) = false) := by
  induction j with
  | zero =>
    rw [retreat]
    exact ⟨Nat.le_refl 0, hij, fun k hk hkj => by omega, fun hi' => by omega⟩
  | succ j ih =>
    rw [retreat]
    split
    · next hcond =>
      obtain ⟨hi', htest⟩ := Bool.and_eq_true_iff.mp hcond
      obtain ⟨hle, hge, hall, hstop⟩ := ih (of_decide_eq_true hi')
      refine ⟨by omega, hge, fun k hk hkj => ?_, hstop⟩
      by_cases hkj' : k = j + 1
      · rwa [hkj']
      · exact hall k hk (by omega)
    · next hcond =>
      refine ⟨Nat.le_refl _, hij, fun k hk hkj => by omega, fun hi' => ?_⟩
      simpa [hi'] using hcond

/-- The item at `a` tells the items for the two sides apart. -/
structure Parts (low high : Array α → Nat → Bool) (isLow : α → Bool) (a : Nat) (x : α) : Prop where
  low : ∀ {data : Array α} {k y}, data[a]? = some x → data[k]? = some y → low data k = isLow y
  high : ∀ {data : Array α} {k y}, data[a]? = some x → data[k]? = some y → high data k = !isLow y

theorem divide_spec {low high : Array α → Nat → Bool} {isLow : α → Bool} {x : α}
    (hparts : Parts low high isLow a x) (hx : data[a]? = some x) (hb : b ≤ data.size)
    (fuel exchanged : Nat) (hi : a < i) (hij : i ≤ j + 1) (hj : j < b) (hfuel : j + 1 - i ≤ fuel)
    (hlower : AllIn (isLow · = true) (a + 1) i data)
    (hupper : AllIn (isLow · = false) (j + 1) b data) :
    let divided := divide low high fuel exchanged i j data
    divided.1 = divided.2.1 + 1 ∧ a < divided.1 ∧ divided.1 ≤ b ∧
      Within (a + 1) b data divided.2.2.2 ∧
      AllIn (isLow · = true) (a + 1) divided.1 divided.2.2.2 ∧
      AllIn (isLow · = false) divided.1 b divided.2.2.2 := by
  induction fuel generalizing exchanged i j data with
  | zero =>
    obtain rfl : i = j + 1 := by omega
    exact ⟨rfl, hi, hj, .refl .., hlower, hupper⟩
  | succ fuel ih =>
    rw [divide]
    dsimp only
    obtain ⟨hle, hge, hall, hstop⟩ := advance_spec (low data) (Nat.le_refl (j + 1 - i)) hij
    generalize advance (low data) j (j + 1 - i) i = i' at hle hge hall hstop ⊢
    obtain ⟨hle', hge', hall', hstop'⟩ := retreat_spec (high data) (i := i') (by omega) hge
    generalize retreat (high data) i' j = j' at hle' hge' hall' hstop' ⊢
    have hlower' : AllIn (isLow · = true) (a + 1) i' data :=
      hlower.append fun k y hk hki hy => (hparts.low hx hy).symm.trans (hall k hk hki)
    have hupper' : AllIn (isLow · = false) (j' + 1) b data := by
      refine .append (fun k y hk hkj hy => ?_) hupper
      have hhigh := hall' k hk (Nat.le_of_lt_succ hkj)
      rw [hparts.high hx hy] at hhigh
      simpa using hhigh
    split
    · obtain rfl : i' = j' + 1 := by omega
      exact ⟨rfl, by omega, by omega, .refl .., hlower', hupper'⟩
    · have hi' : i' < data.size := by omega
      have hj' : j' < data.size := by omega
      have hhigh : isLow data[i'] = false := by
        rw [← hparts.low hx (Array.getElem?_eq_getElem hi')]
        exact hstop (by omega)
      have hlow : isLow data[j'] = true := by
        have hstop' := hstop' (by omega)
        rw [hparts.high hx (Array.getElem?_eq_getElem hj')] at hstop'
        simpa using hstop'
      have hne : i' ≠ j' := by
        rintro rfl
        exact Bool.false_ne_true (hhigh.symm.trans hlow)
      have hlt : i' < j' := by omega
      have hswap : Within (a + 1) b data (data.swapIfInBounds i' j') :=
        .swap ⟨by omega, by omega⟩ ⟨by omega, by omega⟩ hb
      have hlower'' := hlower'.swap_succ hlt hj' hlow
      have hupper'' : AllIn (isLow · = false) (j' - 1 + 1) b (data.swapIfInBounds i' j') := by
        rw [Nat.sub_add_cancel (by omega)]
        exact hupper'.swap_pred hlt hj' hhigh
      obtain ⟨hmeet, hlow', hle'', hwithin, hall⟩ := ih
        ((hswap.outside (.inl (Nat.lt_succ_self a))).trans hx) (by rwa [hswap.size])
        (exchanged + 1) (by omega) (by omega) (by omega) (by omega) hlower'' hupper''
      exact ⟨hmeet, hlow', hle'', hswap.trans hwithin, hall⟩

/-- Some item is not less than the items of one range and not greater than those of
another. -/
def Divided (lt : α → α → Bool) (a m m' b : Nat) (data : Array α) : Prop :=
  ∃ x, AllIn (lt x · = false) a m data ∧ AllIn (lt · x = false) m' b data

theorem Divided.lessAt {m' p q : Nat} (hdivided : Divided lt a m m' b data) (h : IsOrder lt)
    (hp : a ≤ p ∧ p < m) (hq : m' ≤ q ∧ q < b) : lessAt lt data q p = false := by
  obtain ⟨x, hlower, hupper⟩ := hdivided
  exact lessAt_eq_false_iff.mpr fun z y hz hy =>
    h.trans (hlower p y hp.1 hp.2 hy) (hupper q z hq.1 hq.2 hz)

/-- Exchanges on one side do not matter. -/
theorem Divided.within {m' : Nat} (hdivided : Divided lt a m m' b data)
    (h : Within i j data data') (hlower : a ≤ i ∧ j ≤ m ∨ m ≤ i ∨ j ≤ a)
    (hupper : m' ≤ i ∧ j ≤ b ∨ b ≤ i ∨ j ≤ m') : Divided lt a m m' b data' := by
  obtain ⟨x, hx, hx'⟩ := hdivided
  exact ⟨x, h.allIn hlower hx, h.allIn hupper hx'⟩

theorem Divided.follows {m' : Nat} (hdivided : Divided lt a m m' b data) (h : IsOrder lt)
    (hm : m' ≤ m) (ham : a ≤ m) (hfollows : Follows lt a b data) : Follows lt m b data := by
  intro p q hp hq hqb
  by_cases hpa : p < a
  · exact hfollows p q hpa (by omega) hqb
  · exact hdivided.lessAt h ⟨by omega, hp⟩ ⟨by omega, hqb⟩

/-- Sorting the lower side does not matter for the pivot. -/
theorem Divided.left (hdivided : Divided lt a (m + 1) m b data) (h : Within a m data data') :
    Divided lt a (m + 1) m b data' :=
  hdivided.within h (.inl ⟨Nat.le_refl a, Nat.le_succ m⟩) (.inr (.inr (Nat.le_refl m)))

theorem Divided.right (hdivided : Divided lt a (m + 1) m b data)
    (h : Within (m + 1) b data data') : Divided lt a (m + 1) m b data' :=
  hdivided.within h (.inr (.inl (Nat.le_refl _))) (.inl ⟨Nat.le_succ m, Nat.le_refl b⟩)

/-- A range whose two sides are sorted is sorted. -/
theorem Divided.sortedIn (hdivided : Divided lt a (m + 1) m b data) (h : IsOrder lt)
    (hfront : SortedIn lt a m data) (hback : SortedIn lt (m + 1) b data) :
    SortedIn lt a b data := by
  intro p q hp hpq hq
  by_cases hqm : q < m
  · exact hfront p q hp hpq hqm
  by_cases hmp : m < p
  · exact hback p q hmp hpq hq
  · exact hdivided.lessAt h ⟨hp, by omega⟩ ⟨by omega, hq⟩

theorem Sorts.sides (hleft : Sorts lt a m data data') (hright : Sorts lt (m + 1) b data' data'')
    (h : IsOrder lt) (hdivided : Divided lt a (m + 1) m b data) (ham : a ≤ m) (hmb : m < b) :
    Sorts lt a b data data'' where
  within := (hleft.within.mono (Nat.le_refl a) (Nat.le_of_lt hmb)).trans
    (hright.within.mono (by omega) (Nat.le_refl b))
  sorted := ((hdivided.left hleft.within).right hright.within).sortedIn h
    (hright.within.sortedIn (.inl (Nat.le_succ m)) hleft.sorted) hright.sorted

theorem Sorts.sides' (hright : Sorts lt (m + 1) b data data') (hleft : Sorts lt a m data' data'')
    (h : IsOrder lt) (hdivided : Divided lt a (m + 1) m b data) (ham : a ≤ m) (hmb : m < b) :
    Sorts lt a b data data'' where
  within := (hright.within.mono (by omega) (Nat.le_refl b)).trans
    (hleft.within.mono (Nat.le_refl a) (Nat.le_of_lt hmb))
  sorted := ((hdivided.right hright.within).left hleft.within).sortedIn h hleft.sorted
    (hleft.within.sortedIn (.inr (Nat.le_succ m)) hright.sorted)

/-- Behind items that none is less than, only the others are to be sorted. -/
theorem Sorts.rest (hback : Sorts lt m b data data') (h : IsOrder lt)
    (hdivided : Divided lt a m a b data) (ham : a ≤ m) : Sorts lt a b data data' where
  within := hback.within.mono ham (Nat.le_refl b)
  sorted p q hp hpq hq := by
    by_cases hpm : p < m
    · have hdivided' := hdivided.within hback.within (.inr (.inl (Nat.le_refl m)))
        (.inl ⟨ham, Nat.le_refl b⟩)
      exact hdivided'.lessAt h ⟨hp, hpm⟩ ⟨by omega, hq⟩
    · exact hback.sorted p q (by omega) hpq hq

/-- The new place of the pivot is between items that are not greater and items that are
not less. -/
theorem partition_spec (h : IsOrder lt) (ha : a ≤ pivot) (hpivot : pivot < b)
    (hb : b ≤ data.size) :
    let parted := partition lt a b pivot data
    a ≤ parted.1 ∧ parted.1 < b ∧ Within a b data parted.2.2 ∧
      Divided lt a (parted.1 + 1) parted.1 b parted.2.2 := by
  have hfront : Within a b data (data.swapIfInBounds a pivot) :=
    .swap ⟨Nat.le_refl a, by omega⟩ ⟨ha, hpivot⟩ hb
  unfold partition
  dsimp only
  generalize data.swapIfInBounds a pivot = data₁ at hfront ⊢
  have hsize : b ≤ data₁.size := by rwa [hfront.size]
  obtain ⟨x, hx⟩ : ∃ x, data₁[a]? = some x := ⟨_, Array.getElem?_eq_getElem (by omega)⟩
  have hparts : Parts (fun data i => lessAt lt data i a) (fun data j => !lessAt lt data j a)
      (lt · x) a x := by
    refine ⟨fun hx hy => lessAt_of_some hy hx, fun hx hy => ?_⟩
    rw [lessAt_of_some hy hx]
  obtain ⟨hmeet, hlow, hle, hwithin, hlower, hupper⟩ := divide_spec hparts hx hsize
    (b - a) 0 (Nat.lt_succ_self a) (j := b - 1) (by omega) (by omega)
    (by omega) (fun k y hk hki => by omega) (fun k y hk hkb => by omega)
  generalize divide (fun data i => lessAt lt data i a) (fun data j => !lessAt lt data j a) (b - a) 0
    (a + 1) (b - 1) data₁ = divided at hmeet hlow hle hwithin hlower hupper ⊢
  obtain ⟨i, j, exchanged, data₂⟩ := divided
  dsimp only at *
  have hx₂ : data₂[a]? = some x := (hwithin.outside (.inl (Nat.lt_succ_self a))).trans hx
  have hsize₂ : b ≤ data₂.size := by rwa [hwithin.size]
  have hback : Within a b data₂ (data₂.swapIfInBounds j a) :=
    .swap ⟨by omega, by omega⟩ ⟨Nat.le_refl a, by omega⟩ hsize₂
  have hwithin' := hwithin.mono (Nat.le_succ a) (Nat.le_refl b)
  refine ⟨by omega, by omega, hfront.trans (hwithin'.trans hback), x, ?_, ?_⟩ <;>
    intro k y hk hkb hy <;> rw [getElem?_swap (by omega) (by omega)] at hy <;>
    by_cases hkj : k = j
  · rw [hkj, Equiv.swap_apply_left, hx₂] at hy
    cases hy
    exact h.irrefl x
  · by_cases hka : k = a
    · rw [hka, Equiv.swap_apply_right] at hy
      exact h.asymm (hlower j y (by omega) (by omega) hy)
    · rw [Equiv.swap_apply_of_ne_of_ne hkj hka] at hy
      exact h.asymm (hlower k y (by omega) (by omega) hy)
  · rw [hkj, Equiv.swap_apply_left, hx₂] at hy
    cases hy
    exact h.irrefl x
  · rw [Equiv.swap_apply_of_ne_of_ne hkj (by omega)] at hy
    exact hupper k y (by omega) hkb hy

/-- Items that are equal to the pivot, which none is less than, come first. -/
theorem partitionEqual_spec (h : IsOrder lt) (ha : a ≤ pivot) (hpivot : pivot < b)
    (hb : b ≤ data.size) (hleast : ∀ k, a ≤ k → k < b → lessAt lt data k pivot = false) :
    let parted := partitionEqual lt a b pivot data
    a < parted.1 ∧ parted.1 ≤ b ∧ Within a b data parted.2 ∧
      Divided lt a parted.1 a b parted.2 := by
  have hfront : Within a b data (data.swapIfInBounds a pivot) :=
    .swap ⟨Nat.le_refl a, by omega⟩ ⟨ha, hpivot⟩ hb
  obtain ⟨x, hx⟩ : ∃ x, data[pivot]? = some x := ⟨_, Array.getElem?_eq_getElem (by omega)⟩
  have hupper : AllIn (lt · x = false) a b data :=
    fun k y hk hkb hy => lessAt_eq_false_iff.mp (hleast k hk hkb) y x hy hx
  have hx₁ : (data.swapIfInBounds a pivot)[a]? = some x := by
    rw [getElem?_swap (by omega) (by omega), Equiv.swap_apply_left, hx]
  unfold partitionEqual
  dsimp only
  generalize data.swapIfInBounds a pivot = data₁ at hfront hx₁ ⊢
  have hparts : Parts (fun data i => !lessAt lt data a i) (fun data j => lessAt lt data a j)
      (fun y => !lt x y) a x := by
    refine ⟨fun hx hy => ?_, fun hx hy => ?_⟩
    · rw [lessAt_of_some hx hy]
    · rw [lessAt_of_some hx hy, Bool.not_not]
  obtain ⟨-, hlow, hle, hwithin, hlower, -⟩ := divide_spec hparts hx₁ (b := b)
    (by rwa [hfront.size]) (b - a) 0 (Nat.lt_succ_self a) (j := b - 1)
    (by omega) (by omega) (by omega) (fun k y hk hki => by omega) (fun k y hk hkb => by omega)
  generalize divide (fun data i => !lessAt lt data a i) (fun data j => lessAt lt data a j) (b - a) 0
    (a + 1) (b - 1) data₁ = divided at hlow hle hwithin hlower ⊢
  have hall := hfront.trans (hwithin.mono (Nat.le_succ a) (Nat.le_refl b))
  refine ⟨hlow, hle, hall, x, fun k y hk hkm hy => ?_,
    hall.allIn (.inl ⟨Nat.le_refl a, Nat.le_refl b⟩) hupper⟩
  by_cases hka : k = a
  · rw [hka, hwithin.outside (.inl (Nat.lt_succ_self a)), hx₁] at hy
    cases hy
    exact h.irrefl x
  · simpa using hlower k y (by omega) hkm hy

/-! ## Ranges -/

/-- With some fuel every range of fewer items is sorted, if nothing in it is less than what
is before it. -/
def SortsShorter (lt : α → α → Bool) (fuel : Nat) : Prop :=
  ∀ (c : Course) {a b : Nat} {data : Array α}, a ≤ b → b ≤ data.size → b - a < fuel →
    Follows lt a b data → Sorts lt a b data (sortRange lt fuel c a b data)

/-- Sorting the two sides of a pivot sorts a range, whichever comes first. -/
theorem Divided.sorts {fuel : Nat} (hdivided : Divided lt a (m + 1) m b data) (h : IsOrder lt)
    (hshorter : SortsShorter lt fuel) (ham : a ≤ m) (hmb : m < b) (hb : b ≤ data.size)
    (hfuel : b - a < fuel + 1) (hfollows : Follows lt a b data) (fresh next : Course) :
    Sorts lt a b data
      (if m - a < b - m then
        sortRange lt fuel next (m + 1) b (sortRange lt fuel fresh a m data)
      else sortRange lt fuel next a m (sortRange lt fuel fresh (m + 1) b data)) := by
  have hfront (c : Course) {data' : Array α} (hside : Within (m + 1) b data data') :
      Sorts lt a m data' (sortRange lt fuel c a m data') := by
    refine hshorter c ham (by rw [hside.size]; omega) (by omega) fun p q hp hq hqm => ?_
    exact (hside.mono (by omega) (Nat.le_refl b)).follows hfollows p q hp hq (by omega)
  have hback (c : Course) {data' : Array α} (hside : Within a m data data') :
      Sorts lt (m + 1) b data' (sortRange lt fuel c (m + 1) b data') := by
    refine hshorter c hmb (by rwa [hside.size]) (by omega) ?_
    exact (hdivided.left hside).follows h (Nat.le_succ m) (by omega)
      ((hside.mono (Nat.le_refl a) (Nat.le_of_lt hmb)).follows hfollows)
  split
  · have hleft := hfront fresh (.refl (m + 1) b data)
    exact hleft.sides (hback next hleft.within) h hdivided ham hmb
  · have hright := hback fresh (.refl a m data)
    exact hright.sides' (hfront next hright.within) h hdivided ham hmb

theorem sorts_sortRange (h : IsOrder lt) (fuel : Nat) (c : Course) (hab : a ≤ b)
    (hb : b ≤ data.size) (hfuel : b - a < fuel) (hfollows : Follows lt a b data) :
    Sorts lt a b data (sortRange lt fuel c a b data) := by
  induction fuel generalizing c a b data with
  | zero => omega
  | succ fuel ih =>
    rw [sortRange]
    split
    · exact sorts_insertionSort h hb
    next hlong =>
    split
    · exact sorts_heapSort h hab hb
    have hscattered : Within a b data (if c.wasBalanced then data else scatter a b data) := by
      split
      · exact .refl ..
      · exact within_scatter (by omega) hb
    generalize (if c.wasBalanced then data else scatter a b data) = data₁ at hscattered ⊢
    extract_lets data₁ c₁ fresh
    split
    next pivot trend hpivot =>
    have hmem := choosePivot_mem lt data₁ (Nat.not_le.mp hlong)
    rw [hpivot] at hmem
    split
    next pivot₂ trend₂ data₂ hreversed =>
    have hreversed : Within a b data₁ data₂ ∧ a ≤ pivot₂ ∧ pivot₂ < b := by
      split at hreversed <;> cases hreversed
      · exact ⟨within_reverseRange (by rwa [hscattered.size]), by omega, by omega⟩
      · exact ⟨.refl .., hmem⟩
    obtain ⟨hreversed, ha₂, hb₂⟩ := hreversed
    have hwithin₂ := hscattered.trans hreversed
    split
    next isSorted data₃ hmended =>
    have hmended : Within a b data₂ data₃ ∧ (isSorted = true → SortedIn lt a b data₃) := by
      split at hmended
      · have hmend := sortedIn_mend h maxShifts (i := a + 1) (b := b)
          (show b ≤ data₂.size by rwa [hwithin₂.size]) (Nat.lt_succ_self a) (by omega)
          (fun p q hp hpq hq => by omega) (hwithin₂.follows hfollows)
        rwa [hmended] at hmend
      · cases hmended
        exact ⟨.refl .., (absurd · Bool.false_ne_true)⟩
    have hwithin₃ := hwithin₂.trans hmended.1
    have hb₃ : b ≤ data₃.size := by rwa [hwithin₃.size]
    have hfollows₃ := hwithin₃.follows hfollows
    -- What is left to do starts with the same items of the range.
    refine .of_within hwithin₃ ?_
    split
    · next hdone => exact ⟨.refl .., hmended.2 hdone⟩
    split
    · next hequal =>
      obtain ⟨hpos, hbefore⟩ := Bool.and_eq_true_iff.mp hequal
      have hpos := of_decide_eq_true hpos
      have hleast : ∀ k, a ≤ k → k < b → lessAt lt data₃ k pivot₂ = false := fun k hk hkb =>
        h.lessAt_trans (by omega) (by simpa using hbefore) (hfollows₃ (a - 1) k (by omega) hk hkb)
      split
      next m data₄ hparted =>
      obtain ⟨ham, hmb, hwithin, hdivided⟩ := partitionEqual_spec h ha₂ hb₂ hb₃ hleast
      rw [hparted] at ham hmb hwithin hdivided
      have ham := Nat.le_of_lt ham
      refine .of_within hwithin (.rest (ih _ hmb ?_ (by omega) ?_) h hdivided ham)
      · rwa [hwithin.size]
      · exact hdivided.follows h ham ham (hwithin.follows hfollows₃)
    · split
      next m wasPartitioned data₄ hparted =>
      obtain ⟨ham, hmb, hwithin, hdivided⟩ := partition_spec h ha₂ hb₂ hb₃
      rw [hparted] at ham hmb hwithin hdivided
      have hshorter : SortsShorter lt fuel := fun c _ _ _ => ih c
      exact .of_within hwithin (hdivided.sorts h hshorter ham hmb (by rwa [hwithin.size]) hfuel
        (hwithin.follows hfollows₃) fresh _)

/-- Sorting puts no item behind one that it is less than. -/
theorem pairwise_sort (h : IsOrder lt) (items : List α) :
    (sort lt items).Pairwise fun x y => lt y x = false := by
  obtain ⟨hwithin, hsorted⟩ := sorts_sortRange h (items.length + 1)
    { patience := if items.length == 0 then 0 else items.length.log2 + 1 }
    (Nat.zero_le _) (show items.length ≤ items.toArray.size by simp) (by omega)
    fun p q hp => by omega
  rw [List.pairwise_iff_getElem]
  intro i j hi hj hij
  have hlength := (sort_perm lt items).length_eq
  refine lessAt_eq_false_iff.mp (hsorted i j (Nat.zero_le i) hij (by omega)) _ _ ?_ ?_ <;>
    rw [← Array.getElem?_toList] <;> exact List.getElem?_eq_getElem _

end Quicksort

end ScanTriage
