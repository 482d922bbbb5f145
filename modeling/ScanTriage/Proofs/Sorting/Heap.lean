import ScanTriage.Proofs.Sorting.Range

/-!
# Sorting by a heap

In a heap no item is less than its children, so none is greater than the root
(`HeapFrom.greatest`). Sifting an item down mends a heap in which only this item may be
less than its children (`HeapBut.siftDown`). So the heap can be built from its end,
and the roots can be taken from it one after the other (`sorts_heapSort`).
-/

namespace ScanTriage

namespace Quicksort

variable {α : Type} {lt : α → α → Bool} {data data' : Array α}
  {first low hi root n a b : Nat}

def IsChild (p c : Nat) : Prop := c = 2 * p + 1 ∨ c = 2 * p + 2

/-- No item from a place of the heap on is less than its children. -/
def HeapFrom (lt : α → α → Bool) (first low hi : Nat) (data : Array α) : Prop :=
  ∀ p c, low ≤ p → IsChild p c → c < hi → lessAt lt data (first + p) (first + c) = false

/-- Only the item at `root` may be less than its children, which are not greater than
the item above it. -/
structure HeapBut (lt : α → α → Bool) (first low hi root : Nat) (data : Array α) : Prop where
  others : ∀ p c, low ≤ p → p ≠ root → IsChild p c → c < hi →
    lessAt lt data (first + p) (first + c) = false
  above : ∀ p c, low ≤ p → IsChild p root → IsChild root c → c < hi →
    lessAt lt data (first + p) (first + c) = false

theorem HeapFrom.greatest (h : IsOrder lt) (hheap : HeapFrom lt first 0 hi data)
    (hsize : first + hi ≤ data.size) {k : Nat} (hk : k < hi) :
    lessAt lt data first (first + k) = false := by
  induction k using Nat.strongRecOn with
  | ind k ih =>
    by_cases hzero : k = 0
    · subst hzero
      exact lessAt_eq_false_iff.mpr fun x y hx hy => by
        rw [Nat.add_zero, hx] at hy
        cases hy
        exact h.irrefl x
    · have hchild : IsChild ((k - 1) / 2) k := by
        unfold IsChild
        omega
      exact h.lessAt_trans (by omega) (hheap _ k (Nat.zero_le _) hchild hk)
        (ih ((k - 1) / 2) (by omega) (by omega))

/-! ## Sifting down -/

/-- The child that is sifted up is not less than the other one. -/
theorem greaterChild_spec (h : IsOrder lt) (hroot : 2 * root + 1 < hi) {child : Nat}
    (hchild : child = if 2 * root + 1 + 1 < hi &&
        lessAt lt data (first + (2 * root + 1)) (first + (2 * root + 1) + 1)
      then 2 * root + 1 + 1 else 2 * root + 1) :
    IsChild root child ∧ child < hi ∧ ∀ c, IsChild root c → c < hi →
      lessAt lt data (first + child) (first + c) = false := by
  have hself : ∀ i, lessAt lt data i i = false := fun i =>
    lessAt_eq_false_iff.mpr fun x y hx hy => by
      rw [hx] at hy
      cases hy
      exact h.irrefl x
  split at hchild
  · next hcond =>
    obtain ⟨hsecond, hless⟩ := Bool.and_eq_true_iff.mp hcond
    subst hchild
    refine ⟨.inr rfl, of_decide_eq_true hsecond, fun c hc _ => ?_⟩
    rcases hc with rfl | rfl
    · exact h.lessAt_asymm hless
    · exact hself _
  · next hcond =>
    subst hchild
    refine ⟨.inl rfl, hroot, fun c hc hlt => ?_⟩
    rcases hc with rfl | rfl
    · exact hself _
    · have hsecond : decide (2 * root + 1 + 1 < hi) = true := decide_eq_true hlt
      rwa [hsecond, Bool.true_and, Bool.not_eq_true] at hcond

/-- An exchange with the greater child leaves only this child to be sifted down. -/
theorem HeapBut.swap (h : IsOrder lt) (hbut : HeapBut lt first low hi root data)
    (hsize : first + hi ≤ data.size) {child : Nat} (hchild : IsChild root child) (hlt : child < hi)
    (hgreater : ∀ c, IsChild root c → c < hi → lessAt lt data (first + child) (first + c) = false)
    (hless : lessAt lt data (first + root) (first + child) = true) :
    HeapBut lt first low hi child (data.swapIfInBounds (first + root) (first + child)) := by
  unfold IsChild at hchild
  have hother : ∀ k, k ≠ root → k ≠ child →
      Equiv.swap (first + root) (first + child) (first + k) = first + k :=
    fun k hroot hchild => Equiv.swap_apply_of_ne_of_ne (by omega) (by omega)
  refine ⟨fun p c hp hne hc hchi => ?_, fun p c hp hpc hc hchi => ?_⟩ <;>
    rw [lessAt_swap (by omega) (by omega)]
  · unfold IsChild at hc
    by_cases hproot : p = root
    · subst hproot
      rw [Equiv.swap_apply_left]
      by_cases hcc : c = child
      · rw [hcc, Equiv.swap_apply_right]
        exact h.lessAt_asymm hless
      · rw [hother c (by omega) hcc]
        exact hgreater c hc hchi
    · rw [hother p hproot hne]
      by_cases hcroot : c = root
      · subst hcroot
        rw [Equiv.swap_apply_left]
        exact hbut.above p child hp hc hchild hlt
      · rw [hother c hcroot (by omega)]
        exact hbut.others p c hp hproot hc hchi
  · unfold IsChild at hpc hc
    obtain rfl : p = root := by omega
    rw [Equiv.swap_apply_left, hother c (by omega) (by omega)]
    exact hbut.others child c (by omega) (by omega) hc hchi

/-- An item without children is in its place. -/
theorem HeapBut.heapFrom (hbut : HeapBut lt first low hi root data) (hleaf : hi ≤ 2 * root + 1) :
    HeapFrom lt first low hi data := by
  intro p c hp hc hchi
  refine hbut.others p c hp ?_ hc hchi
  unfold IsChild at hc
  omega

theorem HeapBut.siftDown (h : IsOrder lt) (hbut : HeapBut lt first low hi root data)
    (fuel : Nat) (hsize : first + hi ≤ data.size) (hfuel : hi ≤ fuel + root) :
    Within first (first + hi) data (siftDown lt first hi fuel root data) ∧
      HeapFrom lt first low hi (siftDown lt first hi fuel root data) := by
  induction fuel generalizing root data with
  | zero => exact ⟨.refl .., hbut.heapFrom (by omega)⟩
  | succ fuel ih =>
    rw [Quicksort.siftDown]
    dsimp only
    split
    · next hleaf => exact ⟨.refl .., hbut.heapFrom hleaf⟩
    next hroot =>
    generalize hpick : (if 2 * root + 1 + 1 < hi &&
        lessAt lt data (first + (2 * root + 1)) (first + (2 * root + 1) + 1)
      then 2 * root + 1 + 1 else 2 * root + 1) = child
    obtain ⟨hchild, hlt, hgreater⟩ := greaterChild_spec h (Nat.not_le.mp hroot) hpick.symm
    have hbelow : root < child := by
      unfold IsChild at hchild
      omega
    split
    · next hless =>
      have hswap : Within first (first + hi) data
          (data.swapIfInBounds (first + root) (first + child)) :=
        .swap ⟨by omega, by omega⟩ ⟨by omega, by omega⟩ hsize
      obtain ⟨hwithin, hheap⟩ := ih (hbut.swap h hsize hchild hlt hgreater hless)
        (by rwa [hswap.size]) (by omega)
      exact ⟨hswap.trans hwithin, hheap⟩
    · next hstop =>
      refine ⟨.refl .., fun p c hp hc hchi => ?_⟩
      by_cases hproot : p = root
      · subst hproot
        exact h.lessAt_trans (by omega) (hgreater c hc hchi) (by simpa using hstop)
      · exact hbut.others p c hp hproot hc hchi

/-! ## Building a heap and taking it apart -/

/-- Items that are sifted down from the last to the first make a heap. -/
theorem heapFrom_build (h : IsOrder lt) (hsize : first + hi ≤ data.size)
    (hheap : HeapFrom lt first n hi data) :
    let heap := (List.range n).reverse.foldl
      (fun data root => siftDown lt first hi hi root data) data
    Within first (first + hi) data heap ∧ HeapFrom lt first 0 hi heap := by
  induction n generalizing data with
  | zero => exact ⟨.refl .., hheap⟩
  | succ n ih =>
    have hbut : HeapBut lt first n hi n data := by
      refine ⟨fun p c hp hne hc hchi => hheap p c (by omega) hc hchi, fun p c hp hpn _ _ => ?_⟩
      unfold IsChild at hpn
      omega
    obtain ⟨hsift, hheap'⟩ := hbut.siftDown h hi hsize (Nat.le_add_right hi n)
    obtain ⟨hwithin, hheap''⟩ := ih (by rwa [hsift.size]) hheap'
    rw [List.range_succ, List.reverse_concat, List.foldl_cons]
    exact ⟨hsift.trans hwithin, hheap''⟩

/-- No item of a range is less than one before it, from a place on. -/
def SortedFrom (lt : α → α → Bool) (first n hi : Nat) (data : Array α) : Prop :=
  ∀ p q, p < q → n ≤ q → q < hi → lessAt lt data (first + q) (first + p) = false

/-- The root goes to the end of the heap. -/
theorem SortedFrom.swap (h : IsOrder lt) (hheap : HeapFrom lt first 0 (n + 1) data)
    (hsorted : SortedFrom lt first (n + 1) hi data) (hn : n < hi) (hsize : first + hi ≤ data.size) :
    HeapBut lt first 0 n 0 (data.swapIfInBounds first (first + n)) ∧
      SortedFrom lt first n hi (data.swapIfInBounds first (first + n)) := by
  have hother : ∀ k, k ≠ 0 → k ≠ n → Equiv.swap first (first + n) (first + k) = first + k :=
    fun k hzero hlast => Equiv.swap_apply_of_ne_of_ne (by omega) (by omega)
  refine ⟨⟨fun p c _ hne hc hcn => ?_, fun p c _ hp => ?_⟩, fun p q hpq hq hqhi => ?_⟩
  · have hbelow : p < c := by
      unfold IsChild at hc
      omega
    rw [lessAt_swap (by omega) (by omega), hother p hne (by omega), hother c (by omega) (by omega)]
    exact hheap p c (Nat.zero_le p) hc (by omega)
  · unfold IsChild at hp
    omega
  · have hmoved : ∃ k, Equiv.swap first (first + n) (first + p) = first + k ∧ k ≤ max n p := by
      rw [Equiv.swap_apply_def]
      split_ifs
      · exact ⟨n, rfl, Nat.le_max_left n p⟩
      · exact ⟨0, rfl, Nat.zero_le _⟩
      · exact ⟨p, rfl, Nat.le_max_right n p⟩
    obtain ⟨k, hk, hle⟩ := hmoved
    rw [lessAt_swap (by omega) (by omega), hk]
    by_cases hqn : q = n
    · rw [hqn, Equiv.swap_apply_right]
      exact hheap.greatest h (by omega) (by omega)
    · rw [hother q (by omega) hqn]
      exact hsorted k q (by omega) (by omega) hqhi

theorem Within.sortedFrom (hwithin : Within first (first + n) data data')
    (hsorted : SortedFrom lt first n hi data) : SortedFrom lt first n hi data' := by
  intro p q hpq hq hqhi
  have hq' : data'[first + q]? = data[first + q]? := hwithin.outside (by omega)
  by_cases hp : p < n
  · obtain ⟨k, hk, hkn, heq⟩ := hwithin.inside (k := first + p) (by omega) (by omega)
    obtain ⟨p', rfl⟩ := Nat.exists_eq_add_of_le hk
    rw [lessAt_congr hq' heq]
    exact hsorted p' q (by omega) hq hqhi
  · rw [lessAt_congr hq' (hwithin.outside (by omega))]
    exact hsorted p q hpq hq hqhi

/-- Roots that are taken from a heap stand in order. -/
theorem sortedFrom_take (h : IsOrder lt) (size : Nat) (hsize : first + hi ≤ data.size)
    (hn : n ≤ hi) (hfuel : hi ≤ size) (hheap : HeapFrom lt first 0 n data)
    (hsorted : SortedFrom lt first n hi data) :
    let taken := (List.range n).reverse.foldl (fun data last =>
      siftDown lt first last size 0 (data.swapIfInBounds first (first + last))) data
    Within first (first + hi) data taken ∧ SortedFrom lt first 0 hi taken := by
  induction n generalizing data with
  | zero => exact ⟨.refl .., hsorted⟩
  | succ n ih =>
    have hswap : Within first (first + hi) data (data.swapIfInBounds first (first + n)) :=
      .swap ⟨by omega, by omega⟩ ⟨by omega, by omega⟩ hsize
    have hsize' : first + n ≤ (data.swapIfInBounds first (first + n)).size := by
      rw [hswap.size]
      omega
    obtain ⟨hbut, hsorted'⟩ := hsorted.swap h hheap (by omega) hsize
    obtain ⟨hsift, hheap'⟩ := hbut.siftDown h size hsize' (by omega)
    have hstep := hswap.trans (hsift.mono (Nat.le_refl first) (by omega))
    obtain ⟨hwithin, htaken⟩ := ih (by rwa [hstep.size]) (by omega) hheap'
      (hsift.sortedFrom hsorted')
    rw [List.range_succ, List.reverse_concat, List.foldl_cons]
    exact ⟨hstep.trans hwithin, htaken⟩

theorem sorts_heapSort (h : IsOrder lt) (hab : a ≤ b) (hb : b ≤ data.size) :
    Sorts lt a b data (heapSort lt a b data) := by
  obtain ⟨size, rfl⟩ := Nat.exists_eq_add_of_le hab
  rw [heapSort, Nat.add_sub_cancel_left]
  have hleaves : HeapFrom lt a ((size - 1) / 2 + 1) size data := by
    intro p c hp hc hchi
    unfold IsChild at hc
    omega
  obtain ⟨hbuild, hheap⟩ := heapFrom_build h hb hleaves
  generalize (List.range ((size - 1) / 2 + 1)).reverse.foldl
    (fun data root => siftDown lt a size size root data) data = heap at hbuild hheap ⊢
  obtain ⟨htake, hsorted⟩ := sortedFrom_take h size (n := size) (by rwa [hbuild.size])
    (Nat.le_refl size) (Nat.le_refl size) hheap fun p q _ hq hqhi => by omega
  refine ⟨hbuild.trans htake, fun p q hp hpq hq => ?_⟩
  obtain ⟨p', rfl⟩ := Nat.exists_eq_add_of_le hp
  obtain ⟨q', rfl⟩ := Nat.exists_eq_add_of_le (show a ≤ q by omega)
  exact hsorted p' q' (by omega) (Nat.zero_le q') (by omega)

end Quicksort

end ScanTriage
