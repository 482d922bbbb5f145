import Mathlib.Data.List.Basic
import ScanTriage.Sorting.Quicksort

/-!
# What quicksort keeps

Sorting gives a permutation of its items (`sort_perm`), since every step
exchanges two of them. Up to `maxInsertion` items are sorted by exchanging
neighbours of which the second is less, so items that are not less than each
other keep their order (`filter_sort`).
-/

namespace ScanTriage

namespace Quicksort

variable {α : Type} (lt : α → α → Bool)

/-! ## Permutations -/

theorem swapIfInBounds_perm (data : Array α) (i j : Nat) : (data.swapIfInBounds i j).Perm data := by
  rw [Array.swapIfInBounds_def]
  split
  · split
    · exact Array.swap_perm ..
    · exact .refl _
  · exact .refl _

theorem ite_perm {p : Prop} [Decidable p] {x y data : Array α} (hx : x.Perm data)
    (hy : y.Perm data) : (if p then x else y).Perm data := by
  split
  · exact hx
  · exact hy

theorem foldl_perm {β : Type} {step : Array α → β → Array α}
    (h : ∀ data x, (step data x).Perm data) (xs : List β) (data : Array α) :
    (xs.foldl step data).Perm data := by
  induction xs generalizing data with
  | nil => exact .refl _
  | cons x xs ih => exact (ih (step data x)).trans (h data x)

theorem sink_perm (low place : Nat) (data : Array α) : (sink lt low place data).Perm data := by
  induction place generalizing data with
  | zero => exact .refl _
  | succ j ih =>
    rw [sink]
    split
    · exact (ih _).trans (swapIfInBounds_perm ..)
    · exact .refl _

theorem rise_perm (steps place : Nat) (data : Array α) : (rise lt steps place data).Perm data := by
  induction steps generalizing place data with
  | zero => exact .refl _
  | succ steps ih =>
    rw [rise]
    split
    · exact (ih ..).trans (swapIfInBounds_perm ..)
    · exact .refl _

theorem insertionSort_perm (a b : Nat) (data : Array α) : (insertionSort lt a b data).Perm data :=
  foldl_perm (fun data i => sink_perm lt a i data) _ _

theorem mend_perm (a b shifts i : Nat) (data : Array α) :
    (mend lt a b shifts i data).2.Perm data := by
  induction shifts generalizing i data with
  | zero => exact .refl _
  | succ shifts ih =>
    rw [mend]
    split
    · exact .refl _
    split
    · exact .refl _
    refine (ih ..).trans ((ite_perm (rise_perm ..) (.refl _)).trans ?_)
    exact (ite_perm (sink_perm ..) (.refl _)).trans (swapIfInBounds_perm ..)

theorem siftDown_perm (first hi fuel root : Nat) (data : Array α) :
    (siftDown lt first hi fuel root data).Perm data := by
  induction fuel generalizing root data with
  | zero => exact .refl _
  | succ fuel ih =>
    rw [siftDown]
    split
    · exact .refl _
    · exact ite_perm ((ih ..).trans (swapIfInBounds_perm ..)) (.refl _)

theorem heapSort_perm (a b : Nat) (data : Array α) : (heapSort lt a b data).Perm data := by
  refine (foldl_perm (fun data last => ?_) _ _).trans (foldl_perm (fun data root => ?_) _ _)
  · exact (siftDown_perm ..).trans (swapIfInBounds_perm ..)
  · exact siftDown_perm ..

theorem reverseRange_perm (a b : Nat) (data : Array α) : (reverseRange a b data).Perm data :=
  foldl_perm (fun _ _ => swapIfInBounds_perm ..) _ _

theorem scatter_perm (a b : Nat) (data : Array α) : (scatter a b data).Perm data :=
  ((swapIfInBounds_perm ..).trans (swapIfInBounds_perm ..)).trans (swapIfInBounds_perm ..)

theorem divide_perm (low high : Array α → Nat → Bool) (fuel exchanged i j : Nat)
    (data : Array α) : (divide low high fuel exchanged i j data).2.2.2.Perm data := by
  induction fuel generalizing exchanged i j data with
  | zero => exact .refl _
  | succ fuel ih =>
    rw [divide]
    split
    · exact .refl _
    · exact (ih ..).trans (swapIfInBounds_perm ..)

theorem partition_perm (a b pivot : Nat) (data : Array α) :
    (partition lt a b pivot data).2.2.Perm data :=
  (swapIfInBounds_perm ..).trans ((divide_perm ..).trans (swapIfInBounds_perm ..))

theorem partitionEqual_perm (a b pivot : Nat) (data : Array α) :
    (partitionEqual lt a b pivot data).2.Perm data :=
  (divide_perm ..).trans (swapIfInBounds_perm ..)

theorem sortRange_perm (fuel : Nat) (c : Course) (a b : Nat) (data : Array α) :
    (sortRange lt fuel c a b data).Perm data := by
  induction fuel generalizing c a b data with
  | zero => exact .refl _
  | succ fuel ih =>
    rw [sortRange]
    split
    · exact insertionSort_perm ..
    split
    · exact heapSort_perm ..
    have hscattered : (if c.wasBalanced then data else scatter a b data).Perm data :=
      ite_perm (.refl _) (scatter_perm ..)
    refine .trans ?_ hscattered
    generalize (if c.wasBalanced then data else scatter a b data) = data
    extract_lets data₁ c₁ fresh
    split
    next pivot trend hpivot =>
    split
    next pivot₂ trend₂ data₂ hreversed =>
    have hperm₂ : data₂.Perm data₁ := by
      split at hreversed <;> cases hreversed
      · exact reverseRange_perm ..
      · exact .refl _
    split
    next isSorted data₃ hmended =>
    have hperm₃ : data₃.Perm data₂ := by
      split at hmended
      · rw [show data₃ = (isSorted, data₃).2 from rfl, ← hmended]
        exact mend_perm ..
      · cases hmended
        exact .refl _
    refine .trans ?_ (hperm₃.trans hperm₂)
    refine ite_perm (.refl _) (ite_perm ?_ ?_)
    · exact (ih ..).trans (partitionEqual_perm ..)
    · exact ite_perm ((ih ..).trans ((ih ..).trans (partition_perm ..)))
        ((ih ..).trans ((ih ..).trans (partition_perm ..)))

theorem sort_perm (items : List α) : (sort lt items).Perm items := by
  have hperm := sortRange_perm lt (items.length + 1)
    { patience := if items.length == 0 then 0 else items.length.log2 + 1 } 0 items.length
    items.toArray
  exact Array.perm_iff_toList_perm.mp hperm

/-! ## The order of equal items -/

/-- Two neighbours of which the second is less change places. -/
theorem swap_lessAt {data : Array α} {j : Nat} (h : lessAt lt data (j + 1) j = true) :
    ∃ front x y back, data.toList = front ++ x :: y :: back ∧ lt y x = true ∧
      (data.swapIfInBounds (j + 1) j).toList = front ++ y :: x :: back := by
  unfold lessAt at h
  split at h
  · next y x hy hx =>
    obtain ⟨hj, hy⟩ := Array.getElem?_eq_some_iff.mp hy
    obtain ⟨hj', hx⟩ := Array.getElem?_eq_some_iff.mp hx
    have hdata : data.toList = data.toList.take j ++ x :: y :: data.toList.drop (j + 2) := by
      conv_lhs =>
        rw [← List.take_append_drop j data.toList,
          List.drop_eq_getElem_cons (by simpa using hj'),
          List.drop_eq_getElem_cons (by simpa using hj)]
      rw [Array.getElem_toList, Array.getElem_toList, hx, hy]
    refine ⟨data.toList.take j, x, y, data.toList.drop (j + 2), hdata, h, ?_⟩
    rw [Array.swapIfInBounds_def, dif_pos hj, dif_pos hj', Array.toList_swap, hx, hy]
    have hlength : (data.toList.take j).length = j := by
      rw [List.length_take, Array.length_toList]
      omega
    conv_lhs => rw [hdata]
    simp [hlength]
  · cases h

/-- Sinking keeps the order of items that are not less than each other. -/
theorem filter_sink {p : α → Bool} (hp : ∀ x y, p x = true → p y = true → lt x y = false)
    (low place : Nat) (data : Array α) :
    (sink lt low place data).toList.filter p = data.toList.filter p := by
  induction place generalizing data with
  | zero => rfl
  | succ j ih =>
    rw [sink]
    split
    · next hless =>
      obtain ⟨front, x, y, back, hdata, hlt, hswap⟩ :=
        swap_lessAt lt (Bool.and_eq_true_iff.mp hless).2
      rw [ih, hswap, hdata]
      have hnot : ¬ (p y = true ∧ p x = true) := fun h => by simp [hp y x h.1 h.2] at hlt
      by_cases hx : p x = true
      · have hy : ¬ p y = true := fun hy => hnot ⟨hy, hx⟩
        simp [hx, hy]
      · simp [hx, List.filter_cons]
    · rfl

/-- Few items keep their order as far as they are not less than each other. -/
theorem filter_sort {p : α → Bool} (hp : ∀ x y, p x = true → p y = true → lt x y = false)
    {items : List α} (hfew : items.length ≤ maxInsertion) :
    (sort lt items).filter p = items.filter p := by
  have hfold : ∀ (places : List Nat) (data : Array α),
      (places.foldl (fun data i => sink lt 0 i data) data).toList.filter p =
        data.toList.filter p := by
    intro places
    induction places with
    | nil => exact fun _ => rfl
    | cons i places ih => exact fun data => (ih _).trans (filter_sink lt hp 0 i data)
  rw [sort, sortRange, Nat.sub_zero, if_pos hfew]
  exact hfold _ _

end Quicksort

end ScanTriage
