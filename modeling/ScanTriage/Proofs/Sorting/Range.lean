import Mathlib.Logic.Equiv.Basic
import ScanTriage.Proofs.Sorting.Quicksort

/-!
# Sorting a range

Each part of quicksort exchanges items of a range, so the other items stay where
they are and every item of the range was in it before (`Within`). A range is sorted
if none of its items is less than one before it (`SortedIn`). Sinking an item into
the sorted items below it leaves them sorted (`sortedIn_sink`), and so sorting by
insertion sorts (`sorts_insertionSort`). A nearly sorted range is mended by the
same step (`sortedIn_mend`).
-/

namespace ScanTriage

namespace Quicksort

variable {α : Type} {lt : α → α → Bool} {data data' data'' : Array α} {a b a' b' i j k : Nat}

/-! ## Items in order -/

/-- An order in which different items may rank equal. -/
structure IsOrder (lt : α → α → Bool) : Prop where
  asymm : ∀ {x y}, lt x y = true → lt y x = false
  trans : ∀ {x y z}, lt y x = false → lt z y = false → lt z x = false

theorem IsOrder.irrefl (h : IsOrder lt) (x : α) : lt x x = false := by
  by_contra hless
  rw [Bool.not_eq_false] at hless
  exact Bool.false_ne_true ((h.asymm hless).symm.trans hless)

theorem lessAt_of_some {x y : α} (hx : data[i]? = some x) (hy : data[j]? = some y) :
    lessAt lt data i j = lt x y := by
  rw [lessAt, hx, hy]

theorem lessAt_eq_true_iff :
    lessAt lt data i j = true ↔ ∃ x y, data[i]? = some x ∧ data[j]? = some y ∧ lt x y = true := by
  unfold lessAt
  cases data[i]? <;> cases data[j]? <;> simp

theorem lessAt_eq_false_iff : lessAt lt data i j = false ↔
    ∀ x y, data[i]? = some x → data[j]? = some y → lt x y = false := by
  unfold lessAt
  cases data[i]? <;> cases data[j]? <;> simp

theorem lessAt_congr {i' j' : Nat} (hi : data'[i']? = data[i]?) (hj : data'[j']? = data[j]?) :
    lessAt lt data' i' j' = lessAt lt data i j := by
  rw [lessAt, lessAt, hi, hj]

theorem IsOrder.lessAt_asymm (h : IsOrder lt) (hless : lessAt lt data i j = true) :
    lessAt lt data j i = false := by
  obtain ⟨x, y, hx, hy, hless⟩ := lessAt_eq_true_iff.mp hless
  rw [lessAt_of_some hy hx]
  exact h.asymm hless

theorem IsOrder.lessAt_trans (h : IsOrder lt) (hj : j < data.size)
    (hij : lessAt lt data j i = false) (hjk : lessAt lt data k j = false) :
    lessAt lt data k i = false := by
  refine lessAt_eq_false_iff.mpr fun z x hz hx => ?_
  have hy := Array.getElem?_eq_getElem hj
  exact h.trans (lessAt_eq_false_iff.mp hij _ _ hy hx) (lessAt_eq_false_iff.mp hjk _ _ hz hy)

/-! ## Exchanges -/

theorem getElem?_swap (hi : i < data.size) (hj : j < data.size) (k : Nat) :
    (data.swapIfInBounds i j)[k]? = data[Equiv.swap i j k]? := by
  rw [Array.swapIfInBounds_def, dif_pos hi, dif_pos hj, Array.getElem?_swap]
  by_cases hkj : k = j
  · rw [if_pos hkj.symm, hkj, Equiv.swap_apply_right, Array.getElem?_eq_getElem hi]
  by_cases hki : k = i
  · rw [if_neg (Ne.symm hkj), if_pos hki.symm, hki, Equiv.swap_apply_left,
      Array.getElem?_eq_getElem hj]
  · rw [if_neg (Ne.symm hkj), if_neg (Ne.symm hki), Equiv.swap_apply_of_ne_of_ne hki hkj]

theorem lessAt_swap (hi : i < data.size) (hj : j < data.size) (p q : Nat) :
    lessAt lt (data.swapIfInBounds i j) p q =
      lessAt lt data (Equiv.swap i j p) (Equiv.swap i j q) :=
  lessAt_congr (getElem?_swap hi hj p) (getElem?_swap hi hj q)

/-- Only items of a range changed places. -/
structure Within (a b : Nat) (data data' : Array α) : Prop where
  size : data'.size = data.size
  outside : ∀ {k}, k < a ∨ b ≤ k → data'[k]? = data[k]?
  inside : ∀ {k}, a ≤ k → k < b → ∃ k', a ≤ k' ∧ k' < b ∧ data'[k]? = data[k']?

theorem Within.refl (a b : Nat) (data : Array α) : Within a b data data :=
  ⟨rfl, fun _ => rfl, fun {k} ha hb => ⟨k, ha, hb, rfl⟩⟩

theorem Within.trans (h : Within a b data data') (h' : Within a b data' data'') :
    Within a b data data'' where
  size := h'.size.trans h.size
  outside hk := (h'.outside hk).trans (h.outside hk)
  inside ha hb := by
    obtain ⟨k₁, ha₁, hb₁, heq₁⟩ := h'.inside ha hb
    obtain ⟨k₂, ha₂, hb₂, heq₂⟩ := h.inside ha₁ hb₁
    exact ⟨k₂, ha₂, hb₂, heq₁.trans heq₂⟩

theorem Within.mono (h : Within a b data data') (ha : a' ≤ a) (hb : b ≤ b') :
    Within a' b' data data' where
  size := h.size
  outside hk := h.outside (by omega)
  inside {k} ha' hb' := by
    by_cases hk : a ≤ k ∧ k < b
    · obtain ⟨k', hk'⟩ := h.inside hk.1 hk.2
      exact ⟨k', by omega, by omega, hk'.2.2⟩
    · exact ⟨k, ha', hb', h.outside (by omega)⟩

theorem Within.swap (hi : a ≤ i ∧ i < b) (hj : a ≤ j ∧ j < b) (hb : b ≤ data.size) :
    Within a b data (data.swapIfInBounds i j) where
  size := Array.size_swapIfInBounds
  outside hk := by
    rw [getElem?_swap (by omega) (by omega), Equiv.swap_apply_of_ne_of_ne (by omega) (by omega)]
  inside {k} hak hkb := by
    refine ⟨Equiv.swap i j k, ?_, ?_, getElem?_swap (by omega) (by omega) k⟩ <;>
      rw [Equiv.swap_apply_def] <;> split_ifs <;> omega

theorem Within.foldl {β : Type} {step : Array α → β → Array α} {xs : List β}
    (h : ∀ x ∈ xs, ∀ data : Array α, b ≤ data.size → Within a b data (step data x))
    (hb : b ≤ data.size) : Within a b data (xs.foldl step data) := by
  induction xs generalizing data with
  | nil => exact .refl ..
  | cons x xs ih =>
    have hfirst := h x List.mem_cons_self data hb
    exact hfirst.trans <|
      ih (fun y hy => h y (List.mem_cons_of_mem x hy)) (by rw [hfirst.size]; exact hb)

def AllIn (p : α → Prop) (a b : Nat) (data : Array α) : Prop :=
  ∀ k x, a ≤ k → k < b → data[k]? = some x → p x

theorem AllIn.append {p : α → Prop} (hfront : AllIn p a i data) (hback : AllIn p i b data) :
    AllIn p a b data := by
  intro k x ha hb hx
  by_cases hk : k < i
  · exact hfront k x ha hk hx
  · exact hback k x (Nat.not_lt.mp hk) hb hx

/-- An item from further on takes the place behind a range. -/
theorem AllIn.swap_succ {p : α → Prop} (hall : AllIn p a i data) (hij : i < j)
    (hj : j < data.size) (hp : p data[j]) : AllIn p a (i + 1) (data.swapIfInBounds i j) := by
  intro k x ha hk hx
  rw [getElem?_swap (Nat.lt_trans hij hj) hj] at hx
  by_cases hki : k = i
  · rw [hki, Equiv.swap_apply_left, Array.getElem?_eq_getElem hj] at hx
    cases hx
    exact hp
  · rw [Equiv.swap_apply_of_ne_of_ne hki (by omega)] at hx
    exact hall k x ha (by omega) hx

/-- An item from further below takes the place in front of a range. -/
theorem AllIn.swap_pred {p : α → Prop} (hall : AllIn p (j + 1) b data) (hij : i < j)
    (hj : j < data.size) (hp : p data[i]) : AllIn p j b (data.swapIfInBounds i j) := by
  intro k x hk hb hx
  rw [getElem?_swap (Nat.lt_trans hij hj) hj] at hx
  by_cases hkj : k = j
  · rw [hkj, Equiv.swap_apply_right, Array.getElem?_eq_getElem (Nat.lt_trans hij hj)] at hx
    cases hx
    exact hp
  · rw [Equiv.swap_apply_of_ne_of_ne (by omega) hkj] at hx
    exact hall k x (by omega) hb hx

/-- Exchanges in a part of the range or outside it do not matter. -/
theorem Within.allIn {p : α → Prop} (h : Within i j data data')
    (hrange : a ≤ i ∧ j ≤ b ∨ b ≤ i ∨ j ≤ a) (hall : AllIn p a b data) : AllIn p a b data' := by
  intro k x ha hb hx
  by_cases hk : i ≤ k ∧ k < j
  · obtain ⟨k', hi, hj, heq⟩ := h.inside hk.1 hk.2
    exact hall k' x (by omega) (by omega) (heq ▸ hx)
  · rw [h.outside (by omega)] at hx
    exact hall k x ha hb hx

/-! ## Sorted ranges -/

/-- No item of a range is less than one before it in the range. -/
def SortedIn (lt : α → α → Bool) (a b : Nat) (data : Array α) : Prop :=
  ∀ p q, a ≤ p → p < q → q < b → lessAt lt data q p = false

/-- No item of a range is less than one before the range. -/
def Follows (lt : α → α → Bool) (a b : Nat) (data : Array α) : Prop :=
  ∀ p q, p < a → a ≤ q → q < b → lessAt lt data q p = false

/-- The items of a range are put in order. -/
structure Sorts (lt : α → α → Bool) (a b : Nat) (data data' : Array α) : Prop where
  within : Within a b data data'
  sorted : SortedIn lt a b data'

theorem Sorts.of_within (h : Within a b data data') (hsorts : Sorts lt a b data' data'') :
    Sorts lt a b data data'' :=
  ⟨h.trans hsorts.within, hsorts.sorted⟩

theorem Within.sortedIn (h : Within a b data data') (hdisjoint : b' ≤ a ∨ b ≤ a')
    (hsorted : SortedIn lt a' b' data) : SortedIn lt a' b' data' := by
  intro p q hp hpq hq
  rw [lessAt_congr (h.outside (by omega)) (h.outside (by omega))]
  exact hsorted p q hp hpq hq

theorem Within.follows (h : Within a b data data') (hfollows : Follows lt a b data) :
    Follows lt a b data' := by
  intro p q hp ha hb
  obtain ⟨q', ha', hb', heq⟩ := h.inside ha hb
  rw [lessAt_congr heq (h.outside (.inl hp))]
  exact hfollows p q' hp ha' hb'

/-- A sorted range and one more item that is not less than the last one. -/
theorem SortedIn.succ (h : IsOrder lt) (hsorted : SortedIn lt a i data) (hi : i ≤ data.size)
    (hlast : lessAt lt data i (i - 1) = false) : SortedIn lt a (i + 1) data := by
  intro p q hp hpq hq
  by_cases hqi : q = i
  · subst hqi
    by_cases hlast' : p = q - 1
    · rwa [hlast']
    · exact h.lessAt_trans (by omega) (hsorted p (q - 1) hp (by omega) (by omega)) hlast
  · exact hsorted p q hp hpq (by omega)

/-! ## Insertion -/

theorem within_sink (hb : b ≤ data.size) (ha : a ≤ i) (hi : i < b) :
    Within a b data (sink lt a i data) := by
  induction i generalizing data with
  | zero => exact .refl ..
  | succ j ih =>
    rw [sink]
    split
    · next hcond =>
      have hj : a ≤ j := by simpa using (Bool.and_eq_true_iff.mp hcond).1
      have hswap := Within.swap ⟨ha, hi⟩ ⟨hj, Nat.lt_of_succ_lt hi⟩ hb
      exact hswap.trans (ih (by rw [hswap.size]; exact hb) hj (Nat.lt_of_succ_lt hi))
    · exact .refl ..

/-- A range is sorted but for the item at a place, which may be less than those before. -/
def SortedBut (lt : α → α → Bool) (place a b : Nat) (data : Array α) : Prop :=
  ∀ p q, a ≤ p → p < q → q < b → q ≠ place → lessAt lt data q p = false

/-- An exchange moves the item that is out of order one place down. -/
theorem SortedBut.swap (h : IsOrder lt) (hbut : SortedBut lt (j + 1) a b data)
    (hb : b ≤ data.size) (ha : a ≤ j) (hj : j + 1 < b) (hless : lessAt lt data (j + 1) j = true) :
    SortedBut lt j a b (data.swapIfInBounds (j + 1) j) := by
  intro p q hp hpq hq hne
  rw [lessAt_swap (by omega) (by omega)]
  by_cases hqj : q = j + 1
  · rw [hqj, Equiv.swap_apply_left]
    by_cases hpj : p = j
    · rw [hpj, Equiv.swap_apply_right]
      exact h.lessAt_asymm hless
    · rw [Equiv.swap_apply_of_ne_of_ne (by omega) hpj]
      exact hbut p j hp (by omega) (by omega) (by omega)
  · rw [Equiv.swap_apply_of_ne_of_ne hqj hne]
    rw [Equiv.swap_apply_def]
    split_ifs <;> exact hbut _ q (by omega) (by omega) hq hqj

theorem SortedBut.sortedIn_sink (h : IsOrder lt) (hbut : SortedBut lt i a b data)
    (hb : b ≤ data.size) (hi : i < b) : SortedIn lt a b (sink lt a i data) := by
  induction i generalizing data with
  | zero => exact fun p q hp hpq hq => hbut p q hp hpq hq (by omega)
  | succ j ih =>
    rw [sink]
    split
    · next hcond =>
      obtain ⟨ha, hless⟩ := Bool.and_eq_true_iff.mp hcond
      exact ih (hbut.swap h hb (of_decide_eq_true ha) hi hless)
        (by rwa [Array.size_swapIfInBounds]) (by omega)
    · next hcond =>
      intro p q hp hpq hq
      by_cases hqj : q = j + 1
      · subst hqj
        have hstop : lessAt lt data (j + 1) j = false := by
          have hj : decide (a ≤ j) = true := decide_eq_true (by omega)
          simpa [hj] using hcond
        by_cases hpj : p = j
        · rwa [hpj]
        · exact h.lessAt_trans (by omega) (hbut p j hp (by omega) (by omega) (by omega)) hstop
      · exact hbut p q hp hpq hq hqj

/-- Sinking puts one more item into a sorted range. -/
theorem sortedIn_sink (h : IsOrder lt) (hsorted : SortedIn lt a i data) (hi : i < data.size) :
    SortedIn lt a (i + 1) (sink lt a i data) :=
  SortedBut.sortedIn_sink h (fun p q hp hpq hq hne => hsorted p q hp hpq (by omega)) hi (by omega)

theorem sorts_insertionSort (h : IsOrder lt) (hb : b ≤ data.size) :
    Sorts lt a b data (insertionSort lt a b data) := by
  by_cases hab : b ≤ a
  · rw [insertionSort, Nat.sub_eq_zero_of_le (by omega)]
    exact ⟨.refl .., fun p q hp hpq hq => by omega⟩
  obtain ⟨n, rfl⟩ : ∃ n, b = a + 1 + n := ⟨b - (a + 1), by omega⟩
  rw [insertionSort, Nat.add_sub_cancel_left]
  clear hab
  induction n with
  | zero => exact ⟨.refl .., fun p q hp hpq hq => by omega⟩
  | succ n ih =>
    obtain ⟨hwithin, hsorted⟩ := ih (by omega)
    rw [List.range'_1_concat, List.foldl_concat]
    generalize (List.range' (a + 1) n).foldl (fun data i => sink lt a i data) data = front
      at hwithin hsorted ⊢
    have hsize : a + 1 + n < front.size := by
      rw [hwithin.size]
      omega
    exact ⟨(hwithin.mono (Nat.le_refl a) (by omega)).trans
      (within_sink hsize (by omega) (Nat.lt_succ_self _)), sortedIn_sink h hsorted hsize⟩

/-! ## Nearly sorted ranges -/

theorem within_rise {steps : Nat} (hb : b ≤ data.size) (ha : a < i) (hi : i + steps ≤ b) :
    Within a b data (rise lt steps i data) := by
  induction steps generalizing i data with
  | zero => exact .refl ..
  | succ steps ih =>
    rw [rise]
    split
    · have hswap := Within.swap (i := i) (j := i - 1) (a := a) ⟨by omega, by omega⟩
        ⟨by omega, by omega⟩ hb
      exact hswap.trans (ih (by rw [hswap.size]; exact hb) (by omega) (by omega))
    · exact .refl ..

/-- Where nothing is less than what is before the range, sinking further than to its
front makes no difference. -/
theorem sink_zero (hfollows : Follows lt a b data) (hb : b ≤ data.size) (ha : a ≤ i) (hi : i < b) :
    sink lt 0 i data = sink lt a i data := by
  induction i generalizing data with
  | zero => rfl
  | succ j ih =>
    rw [sink, sink]
    by_cases haj : a ≤ j
    · simp only [haj, Nat.zero_le, decide_true, Bool.true_and]
      split
      · have hswap := Within.swap ⟨ha, hi⟩ ⟨haj, Nat.lt_of_succ_lt hi⟩ hb
        exact ih (hswap.follows hfollows) (by rwa [hswap.size]) haj (Nat.lt_of_succ_lt hi)
      · rfl
    · rw [hfollows j (j + 1) (by omega) ha hi]
      simp

theorem firstDescent_spec (h : IsOrder lt) (hb : b ≤ data.size) (steps : Nat)
    (hsteps : i + steps ≤ b) (hsorted : SortedIn lt a i data) :
    i ≤ firstDescent lt data steps i ∧ firstDescent lt data steps i ≤ i + steps ∧
      SortedIn lt a (firstDescent lt data steps i) data := by
  induction steps generalizing i with
  | zero => exact ⟨Nat.le_refl _, Nat.le_refl _, hsorted⟩
  | succ steps ih =>
    rw [firstDescent]
    split
    · exact ⟨Nat.le_refl _, by omega, hsorted⟩
    · next hless =>
      obtain ⟨hle, hge, hsorted'⟩ := ih (i := i + 1) (by omega)
        (hsorted.succ h (by omega) (by simpa using hless))
      exact ⟨by omega, by omega, hsorted'⟩

/-- The lesser of two items that change places is shifted down to where it belongs. -/
theorem sortedIn_shiftDown (h : IsOrder lt) (hb : b ≤ data.size) (ha : a < i) (hi : i < b)
    (hsorted : SortedIn lt a i data) (hfollows : Follows lt a b data)
    (hdata' : data' = if 2 ≤ i - a then sink lt 0 (i - 1) (data.swapIfInBounds i (i - 1))
      else data.swapIfInBounds i (i - 1)) : Within a b data data' ∧ SortedIn lt a i data' := by
  have hswap : Within (i - 1) (i + 1) data (data.swapIfInBounds i (i - 1)) :=
    .swap ⟨by omega, by omega⟩ ⟨by omega, by omega⟩ (by omega)
  have hwithin := hswap.mono (show a ≤ i - 1 by omega) hi
  have hsize : b ≤ (data.swapIfInBounds i (i - 1)).size := by rwa [hswap.size]
  split at hdata'
  · rw [sink_zero (hwithin.follows hfollows) hsize (by omega) (by omega)] at hdata'
    have hfront : SortedIn lt a (i - 1) (data.swapIfInBounds i (i - 1)) :=
      hswap.sortedIn (.inl (Nat.le_refl _)) fun p q hp hpq hq => hsorted p q hp hpq (by omega)
    have hall := sortedIn_sink h hfront (by omega)
    rw [Nat.sub_add_cancel (by omega), ← hdata'] at hall
    exact ⟨hdata' ▸ hwithin.trans (within_sink hsize (by omega) (by omega)), hall⟩
  · exact ⟨hdata' ▸ hwithin, fun p q hp hpq hq => by omega⟩

/-- A range that is reported to be mended is sorted. -/
theorem sortedIn_mend (h : IsOrder lt) (shifts : Nat) (hb : b ≤ data.size) (ha : a < i)
    (hi : i ≤ b) (hsorted : SortedIn lt a i data) (hfollows : Follows lt a b data) :
    Within a b data (mend lt a b shifts i data).2 ∧
      ((mend lt a b shifts i data).1 = true → SortedIn lt a b (mend lt a b shifts i data).2) := by
  induction shifts generalizing i data with
  | zero => exact ⟨.refl .., (absurd · Bool.false_ne_true)⟩
  | succ shifts ih =>
    obtain ⟨hle, hge, hdescent⟩ := firstDescent_spec h hb (b - i) (by omega) hsorted
    rw [mend]
    generalize firstDescent lt data (b - i) i = i' at hle hge hdescent
    split
    · next hend =>
      rw [beq_iff_eq] at hend
      exact ⟨.refl .., fun _ => hend ▸ hdescent⟩
    split
    · exact ⟨.refl .., (absurd · Bool.false_ne_true)⟩
    next hend _ =>
    have hlt : i' < b := by
      have hne : i' ≠ b := by simpa using hend
      omega
    obtain ⟨hdown, hfront⟩ := sortedIn_shiftDown h hb (by omega) hlt hdescent hfollows rfl
    dsimp only
    generalize (if 2 ≤ i' - a then sink lt 0 (i' - 1) (data.swapIfInBounds i' (i' - 1))
      else data.swapIfInBounds i' (i' - 1)) = data₁ at hdown hfront ⊢
    have hup : Within i' b data₁
        (if 2 ≤ b - i' then rise lt (b - (i' + 1)) (i' + 1) data₁ else data₁) := by
      split
      · exact within_rise (by rwa [hdown.size]) (Nat.lt_succ_self i') (by omega)
      · exact .refl ..
    generalize (if 2 ≤ b - i' then rise lt (b - (i' + 1)) (i' + 1) data₁ else data₁) = data₂
      at hup ⊢
    have hwithin := hdown.trans (hup.mono (by omega) (Nat.le_refl b))
    obtain ⟨hrest, hmended⟩ := ih (by rwa [hwithin.size]) (by omega) (by omega)
      (hup.sortedIn (.inl (Nat.le_refl _)) hfront) (hwithin.follows hfollows)
    exact ⟨hwithin.trans hrest, hmended⟩

end Quicksort

end ScanTriage
