import Mathlib.Algebra.BigOperators.Group.List.Basic
import Mathlib.Algebra.Ring.Int.Defs
import Mathlib.Data.List.Induction
import Mathlib.Data.List.Nodup
import ScanTriage.Proofs.History.Record

/-!
# Tables of groups

Tables in ascending order of their keys are maps: an update changes what is under
its key and nothing else (`lookup_update`). A table that is built from items by
updates under the key of each item holds one value for each group of items with the
same key (`Groups`), and counts over its entries add up to counts over all items
(`Groups.sum_eq`).
-/

namespace ScanTriage

namespace SortedTable

variable {α β γ : Type} {table : SortedTable α} {key id : Bytes}

def IsSorted (table : SortedTable α) : Prop := table.Pairwise fun x y => x.1 < y.1

/-! ## Lookup -/

theorem lookup_cons (k : Bytes) (v : α) (table : SortedTable α) (id : Bytes) :
    ((k, v) :: table).lookup id = if id = k then some v else table.lookup id := by
  rw [List.lookup_cons]
  by_cases hid : id = k
  · rw [if_pos hid, beq_iff_eq.mpr hid]
  · rw [if_neg hid, beq_false_of_ne hid]

theorem lookup_eq_none (h : ∀ x ∈ table, x.1 ≠ id) : table.lookup id = none := by
  induction table with
  | nil => rfl
  | cons x table ih =>
    rw [List.forall_mem_cons] at h
    rw [lookup_cons, if_neg h.1.symm, ih h.2]

theorem lookup_eq_some_iff (h : IsSorted table) {value : α} :
    table.lookup id = some value ↔ (id, value) ∈ table := by
  induction table with
  | nil => simp
  | cons x table ih =>
    obtain ⟨k, v⟩ := x
    obtain ⟨hfirst, hrest⟩ := List.pairwise_cons.mp h
    rw [lookup_cons, List.mem_cons, Prod.mk.injEq]
    by_cases hid : id = k
    · subst hid
      have hnot : (id, value) ∉ table := fun hmem => List.lt_irrefl id (hfirst _ hmem)
      simp [hnot, eq_comm]
    · simp [hid, ih hrest]

theorem IsSorted.nodup_keys (h : IsSorted table) : (table.map Prod.fst).Nodup := by
  refine List.pairwise_map.mpr (List.Pairwise.imp (fun hlt heq => ?_) h)
  exact List.lt_irrefl _ (heq ▸ hlt)

/-- Tables are equal if they hold the same under every key. -/
theorem IsSorted.ext {table' : SortedTable α} (h : IsSorted table) (h' : IsSorted table')
    (hlookup : ∀ id, table.lookup id = table'.lookup id) : table = table' := by
  have hperm : table.Perm table' := by
    rw [List.perm_ext_iff_of_nodup h.nodup_keys.of_map h'.nodup_keys.of_map]
    intro x
    rw [← lookup_eq_some_iff h, ← lookup_eq_some_iff h', hlookup]
  refine hperm.eq_of_pairwise (fun x y _ _ hxy hyx => ?_) h h'
  exact absurd hxy (List.lt_asymm hyx)

theorem lookup_update (h : IsSorted table) (key : Bytes) (default : α) (f : α → α) (id : Bytes) :
    (update key default f table).lookup id =
      if id = key then some (f ((table.lookup key).getD default)) else table.lookup id := by
  induction table with
  | nil => exact lookup_cons key (f default) [] id
  | cons x table ih =>
    obtain ⟨k, v⟩ := x
    obtain ⟨hfirst, hrest⟩ := List.pairwise_cons.mp h
    by_cases hk : k = key
    · subst hk
      rw [update, if_pos (by simp)]
      simp only [lookup_cons]
      split <;> rfl
    rw [update, if_neg (by simpa using hk)]
    by_cases hlt : key < k
    · -- The key is below all keys of the table, so it is not there yet.
      have hnone : table.lookup key = none := lookup_eq_none fun y hy hkey =>
        List.lt_irrefl key (List.lt_trans hlt (hkey ▸ hfirst y hy))
      rw [if_pos (by simpa using hlt), lookup_cons, lookup_cons k v table key, if_neg (Ne.symm hk),
        hnone]
      rfl
    · rw [if_neg (by simpa using hlt), lookup_cons, lookup_cons, lookup_cons, ih hrest,
        if_neg (Ne.symm hk)]
      by_cases hid : id = key
      · rw [if_neg (hid.trans_ne (Ne.symm hk)), if_pos hid, if_pos hid]
      · rw [if_neg hid, if_neg hid]

/-! ## Order -/

theorem key_of_mem_update {default : α} {f : α → α} {x : Bytes × α}
    (h : x ∈ update key default f table) : x.1 = key ∨ ∃ y ∈ table, x.1 = y.1 := by
  induction table with
  | nil =>
    rw [List.mem_singleton.mp h]
    exact .inl rfl
  | cons y table ih =>
    rw [update] at h
    split at h
    · rcases List.mem_cons.mp h with rfl | h
      · exact .inr ⟨y, List.mem_cons_self, rfl⟩
      · exact .inr ⟨x, List.mem_cons_of_mem _ h, rfl⟩
    · split at h
      · rcases List.mem_cons.mp h with rfl | h
        · exact .inl rfl
        · exact .inr ⟨x, h, rfl⟩
      · rcases List.mem_cons.mp h with rfl | h
        · exact .inr ⟨_, List.mem_cons_self, rfl⟩
        · refine (ih h).imp_right ?_
          rintro ⟨z, hz, hx⟩
          exact ⟨z, List.mem_cons_of_mem _ hz, hx⟩

theorem isSorted_update (h : IsSorted table) (key : Bytes) (default : α) (f : α → α) :
    IsSorted (update key default f table) := by
  induction table with
  | nil => exact List.pairwise_singleton ..
  | cons x table ih =>
    obtain ⟨k, v⟩ := x
    obtain ⟨hfirst, hrest⟩ := List.pairwise_cons.mp h
    rw [update]
    split
    · exact List.pairwise_cons.mpr ⟨hfirst, hrest⟩
    · next hne =>
      split
      · next hlt =>
        have hlt : key < k := by simpa using hlt
        refine List.pairwise_cons.mpr ⟨List.forall_mem_cons.mpr ⟨hlt, fun y hy => ?_⟩, h⟩
        exact List.lt_trans hlt (hfirst y hy)
      · next hnot =>
        refine List.pairwise_cons.mpr ⟨fun y hy => ?_, ih hrest⟩
        rcases key_of_mem_update hy with hkey | ⟨z, hz, hkey⟩
        · rw [hkey]
          exact Std.lt_of_le_of_ne (List.not_lt.mp (by simpa using hnot)) (by simpa using hne)
        · rw [hkey]
          exact hfirst z hz

/-! ## Merging -/

/-- Updates under all keys of another table. -/
def merge (default : α) (g : α → γ → α) (table : SortedTable α) (other : SortedTable γ) :
    SortedTable α :=
  other.foldl (fun table x => update x.1 default (g · x.2) table) table

theorem isSorted_merge (h : IsSorted table) (default : α) (g : α → γ → α)
    (other : SortedTable γ) : IsSorted (merge default g table other) := by
  induction other generalizing table with
  | nil => exact h
  | cons x other ih => exact ih (isSorted_update h ..)

theorem lookup_merge (h : IsSorted table) (default : α) (g : α → γ → α) {other : SortedTable γ}
    (hother : IsSorted other) (id : Bytes) :
    (merge default g table other).lookup id =
      match other.lookup id with
      | none => table.lookup id
      | some c => some (g ((table.lookup id).getD default) c) := by
  induction other generalizing table with
  | nil => rfl
  | cons x other ih =>
    obtain ⟨k, c⟩ := x
    obtain ⟨hfirst, hrest⟩ := List.pairwise_cons.mp hother
    refine (ih (isSorted_update h ..) hrest).trans ?_
    rw [lookup_update h, lookup_cons]
    by_cases hid : id = k
    · subst hid
      have hnone : other.lookup id = none := lookup_eq_none fun y hy hkey =>
        List.lt_irrefl id (hkey ▸ hfirst y hy)
      simp [hnone]
    · rw [if_neg hid, if_neg hid]

/-! ## Groups -/

def group (key : β → Bytes) (xs : List β) (id : Bytes) : List β := xs.filter (key · = id)

theorem group_append (key : β → Bytes) (xs ys : List β) (id : Bytes) :
    group key (xs ++ ys) id = group key xs id ++ group key ys id := List.filter_append ..

theorem group_ne_nil {key : β → Bytes} {xs : List β} :
    group key xs id ≠ [] ↔ ∃ x ∈ xs, key x = id := by
  simp [group, List.filter_eq_nil_iff]

/-- A table holds the value of each group of items that is not empty. -/
structure Groups (key : β → Bytes) (value : List β → α) (xs : List β) (table : SortedTable α) :
    Prop where
  sorted : IsSorted table
  lookup : ∀ id, table.lookup id =
    if group key xs id = [] then none else some (value (group key xs id))

namespace Groups

variable {key : β → Bytes} {value : List β → α} {xs : List β}

theorem nil (key : β → Bytes) (value : List β → α) : Groups key value [] [] :=
  ⟨.nil, fun _ => rfl⟩

/-- The value of an empty group is the default. -/
theorem getD_lookup (h : Groups key value xs table) (id : Bytes) :
    (table.lookup id).getD (value []) = value (group key xs id) := by
  rw [h.lookup]
  split
  · next hnil => rw [hnil]; rfl
  · rfl

theorem mem_iff (h : Groups key value xs table) {x : Bytes × α} :
    x ∈ table ↔ group key xs x.1 ≠ [] ∧ x.2 = value (group key xs x.1) := by
  rw [← lookup_eq_some_iff h.sorted, h.lookup]
  split
  · next hnil => simp [hnil]
  · next hne => simp [hne, eq_comm]

theorem update (h : Groups key value xs table) {f : α → α} (x : β)
    (hf : ∀ ys, f (value ys) = value (ys ++ [x])) :
    Groups key value (xs ++ [x]) (SortedTable.update (key x) (value []) f table) where
  sorted := isSorted_update h.sorted ..
  lookup id := by
    rw [lookup_update h.sorted, group_append]
    by_cases hid : id = key x
    · subst hid
      have hself : group key [x] (key x) = [x] := by simp [group]
      rw [if_pos rfl, h.getD_lookup, hf, hself, if_neg (by simp)]
    · have hother : group key [x] id = [] := by simp [group, Ne.symm hid]
      rw [if_neg hid, hother, List.append_nil, h.lookup]

theorem foldl_update {f : β → α → α} (hf : ∀ x ys, f x (value ys) = value (ys ++ [x]))
    (xs : List β) :
    Groups key value xs
      (xs.foldl (fun table x => SortedTable.update (key x) (value []) (f x) table) []) := by
  induction xs using List.reverseRecOn with
  | nil => exact .nil key value
  | append_singleton xs x ih =>
    rw [List.foldl_append]
    exact ih.update x (hf x)

theorem foldl_update_append {f : β → α → α} (hf : ∀ x ys, f x (value ys) = value (ys ++ [x]))
    (h : Groups key value xs table) (ys : List β) :
    Groups key value (xs ++ ys)
      (ys.foldl (fun table x => SortedTable.update (key x) (value []) (f x) table) table) := by
  induction ys generalizing xs table with
  | nil => rwa [List.append_nil]
  | cons y ys ih => simpa using ih (h.update y (hf y))

/-- The groups of more items, from a table of them. -/
theorem merge (h : Groups key value xs table) {ys : List β} {value' : List β → γ}
    {other : SortedTable γ} (hother : Groups key value' ys other) {g : α → γ → α}
    (hg : ∀ as bs, g (value as) (value' bs) = value (as ++ bs)) :
    Groups key value (xs ++ ys) (SortedTable.merge (value []) g table other) where
  sorted := isSorted_merge h.sorted ..
  lookup id := by
    rw [lookup_merge h.sorted _ _ hother.sorted, hother.lookup, group_append]
    by_cases hnil : group key ys id = []
    · rw [if_pos hnil, hnil, List.append_nil, h.lookup]
    · rw [if_neg hnil, if_neg (by simp [hnil]), ← hg, ← h.getD_lookup]

/-- The table of all items has under each key what the tables of two parts have
there, put together. -/
theorem lookup_append (h : Groups key value xs table) {ys : List β} {table' whole : SortedTable α}
    (h' : Groups key value ys table') (hwhole : Groups key value (xs ++ ys) whole) {g : α → α → α}
    (hg : ∀ as bs, value (as ++ bs) = g (value as) (value bs)) (id : Bytes) :
    whole.lookup id = Option.merge g (table.lookup id) (table'.lookup id) := by
  rw [hwhole.lookup, h.lookup, h'.lookup, group_append]
  by_cases hxs : group key xs id = [] <;> by_cases hys : group key ys id = [] <;>
    simp [hxs, hys, hg, Option.merge]

/-- The order of the items does not matter if it does not matter in a group. -/
theorem eq_of_perm (h : Groups key value xs table) {ys : List β} {table' : SortedTable α}
    (h' : Groups key value ys table') (hvalue : ∀ as bs, as.Perm bs → value as = value bs)
    (hperm : xs.Perm ys) : table = table' := by
  refine IsSorted.ext h.sorted h'.sorted fun id => ?_
  have hgroup : (group key xs id).Perm (group key ys id) := hperm.filter _
  rw [h.lookup, h'.lookup, hvalue _ _ hgroup]
  by_cases hnil : group key ys id = []
  · rw [if_pos hnil, if_pos (hgroup.trans (.of_eq hnil)).eq_nil]
  · rw [if_neg hnil, if_neg fun hxs => hnil (hgroup.symm.trans (.of_eq hxs)).eq_nil]

theorem nodup_keys (h : Groups key value xs table) : (table.map Prod.fst).Nodup :=
  h.sorted.nodup_keys

end Groups

/-- Each item is in the group of one of the keys, if its own key is one of them. -/
theorem sum_countP_group (key : β → Bytes) (p : β → Bool) {keys : List Bytes}
    (hkeys : keys.Nodup) {xs : List β} (h : ∀ x ∈ xs, key x ∈ keys) :
    (keys.map fun id => ((group key xs id).countP p : Int)).sum = xs.countP p := by
  induction xs with
  | nil => simp [group]
  | cons x xs ih =>
    rw [List.forall_mem_cons] at h
    -- One item adds to the group of its key only, and that key stands once.
    have hone : (keys.map fun id => ((group key [x] id).countP p : Int)).sum = [x].countP p := by
      rw [List.sum_map_eq_nsmul_single (key x) _ fun id hid _ => by simp [group, hid.symm],
        @List.count_eq_one_of_mem _ instBEqOfDecidableEq _ _ _ hkeys h.1]
      simp [group]
    have hsplit : ∀ id, ((group key (x :: xs) id).countP p : Int) =
        (group key [x] id).countP p + (group key xs id).countP p := fun id => by
      rw [← Int.natCast_add, ← List.countP_append, ← group_append]
      rfl
    simp only [hsplit]
    rw [List.sum_map_add, hone, ih h.2, ← Int.natCast_add, ← List.countP_append]
    rfl

/-- What counts items in each group counts them all over the table. -/
theorem Groups.sum_eq {key : β → Bytes} {value : List β → α} {xs : List β}
    (h : Groups key value xs table) (count : α → Int) (p : β → Bool)
    (hcount : ∀ id, count (value (group key xs id)) = (group key xs id).countP p) :
    (table.map fun x => count x.2).sum = xs.countP p := by
  have hmem : ∀ x ∈ xs, key x ∈ table.map Prod.fst := fun x hx => by
    refine List.mem_map.mpr ⟨(key x, value (group key xs (key x))), h.mem_iff.mpr ⟨?_, rfl⟩, rfl⟩
    exact group_ne_nil.mpr ⟨x, hx, rfl⟩
  rw [← sum_countP_group key p h.nodup_keys hmem, List.map_map]
  refine congrArg List.sum (List.map_congr_left fun x hx => ?_)
  rw [(h.mem_iff.mp hx).2, hcount]
  rfl

end SortedTable

end ScanTriage
