import Mathlib.Data.List.Chain
import ScanTriage.Proofs.History.Readable

/-!
# Run after run

Appends one after the other, from an empty directory on and with any bounds. What
one of them keeps is `Kept.step_of_ok`; after all of them the last records can be read,
without a gap, and all of them unless an archive is gone (`records_appendAll`).
-/

namespace ScanTriage

namespace History

open ScanTriage.Path (IsName)
open ScanTriage.Tree (HasRoom IsDirectoryIn contentOf)

/-- A record with the bound that it is appended under. -/
abbrev Run := HistoryRecord × Int64

def appendAll (dir : Bytes) : List Run → FileTask Unit
  | [] => pure ()
  | (r, m) :: rest => do
    append dir r m
    appendAll dir rest

/-- An archive is listed after some runs. -/
def Listed (t : Tree) (dir : Bytes) (runs : List Run) (a : Archive) : Prop :=
  ∃ found, ((t.run (appendAll dir runs)).2.run (archives dir)).1 = .ok found ∧ a ∈ found

variable {t t' t₀ : Tree} {dir name : Bytes} {place : NodePath} {c c' : Bytes → Option Node}
  {volumes : List Volume} {active : List HistoryRecord} {runs : List Run} {r : HistoryRecord}
  {m : Int64}

theorem exists_run_appendAll_cons {x : Run} {later : List Run}
    (h : t.run (appendAll dir (x :: later)) = (.ok (), t')) :
    ∃ t₁, t.run (append dir x.1 x.2) = (.ok (), t₁) ∧
      t₁.run (appendAll dir later) = (.ok (), t') := by
  have hrun : t.run (appendAll dir (x :: later)) = _ :=
    Tree.run_task_bind (append dir x.1 x.2) _ t
  rw [hrun] at h
  rcases hx : t.run (append dir x.1 x.2) with ⟨fault | _, t₁⟩
  · rw [hx] at h
    cases h
  · rw [hx] at h
    exact ⟨t₁, rfl, h⟩

/-- Where all runs succeed, the first of them succeed and then the others. -/
theorem exists_run_appendAll {front later : List Run}
    (h : t.run (appendAll dir (front ++ later)) = (.ok (), t')) :
    ∃ t₁, t.run (appendAll dir front) = (.ok (), t₁) ∧
      t₁.run (appendAll dir later) = (.ok (), t') := by
  induction front generalizing t with
  | nil => exact ⟨t, rfl, h⟩
  | cons x front ih =>
    obtain ⟨t₁, hx, hrest⟩ := exists_run_appendAll_cons h
    obtain ⟨t₂, hfront, hlater⟩ := ih hrest
    exact ⟨t₂, (Tree.run_task_ok hx _).trans hfront, hlater⟩

theorem run_appendAll_concat (h : t.run (appendAll dir runs) = (.ok (), t')) (r : HistoryRecord)
    (m : Int64) : t.run (appendAll dir (runs ++ [(r, m)])) = t'.run (append dir r m) := by
  induction runs generalizing t with
  | nil =>
    obtain rfl : t = t' := congrArg Prod.snd h
    refine (Tree.run_task_bind _ _ t).trans ?_
    rcases t.run (append dir r m) with ⟨_ | _, t₁⟩ <;> rfl
  | cons x runs ih =>
    obtain ⟨t₁, hx, hrest⟩ := exists_run_appendAll_cons h
    exact (Tree.run_task_ok hx _).trans (ih hrest)

/-! ## Room -/

theorem length_archiveName (n : Int64) : (archiveName n).length ≤ 44 := by
  have hfixed : archiveFront.length = 21 ∧ archiveBack.length = 3 := by decide
  have hdigits : (Bytes.decimalInt64 n).length ≤ 20 := by
    rcases Integer.decimalInt64_cases n with ⟨k, hk, -, hn⟩ | ⟨k, hk, -, -, hn⟩
    · have hle := Bytes.length_decimal_le (k := 19) (by decide) (by omega : k < 10 ^ 19)
      rw [hn]
      omega
    · have hle := Bytes.length_decimal_le (k := 19) (by decide) (by omega : k < 10 ^ 19)
      rw [hn, List.length_cons]
      omega
  rw [archiveName, List.length_append, List.length_append]
  omega

theorem length_temporaryName {n : Nat} (h : n < 10 ^ 10) : (temporaryName n).length ≤ 44 := by
  have hfixed : ("triage-history." : Bytes).length = 15 ∧ (".tmp" : Bytes).length = 4 := by decide
  have hdigits := Bytes.length_decimal_le (by decide) h
  rw [temporaryName, List.length_append, List.length_append]
  omega

/-- Names of an append have room behind a path that is not too long. -/
theorem hasRoom_of_length (hdir : dir ≠ []) (hlength : (Path.clean dir).length + 45 < Tree.maxPath)
    (hname : IsName name) (hshort : name.length ≤ 44) : HasRoom dir name := by
  have hjoin := Path.length_join_le hdir hname
  exact ⟨by omega, by rw [Tree.maxName]; omega⟩

/-! ## One run -/

theorem Grows.unblocked (h : Grows c c') (hc : ∀ name, ¬ IsDirectoryIn c name) (name : Bytes) :
    ¬ IsDirectoryIn c' name := by
  rintro ⟨mode, hmode⟩
  rcases h name with hsame | hnone | ⟨-, id, data, mode', hfile⟩
  · exact hc name ⟨mode, hsame ▸ hmode⟩
  · rw [hnone] at hmode
    cases hmode
  · rw [hfile] at hmode
    cases hmode

/-- What holds after runs that started from an empty directory. -/
structure Kept (t₀ : Tree) (dir : Bytes) (runs : List Run) (t : Tree) (place : NodePath)
    (c : Bytes → Option Node) (volumes : List Volume) (active : List HistoryRecord) : Prop where
  reached : t₀.run (appendAll dir runs) = (.ok (), t)
  shelf : Shelf t dir place c volumes (active.map recordLine)
  whole : IsWhole (contentOf (c fileName))
  unblocked : ∀ name, ¬ IsDirectoryIn c name
  unused : c (temporaryName 1000000000) = none
  storable : ∀ r ∈ active, r.IsStorable
  few : volumes.length ≤ maxArchives
  consecutive : (volumes.map (·.1.number.toInt)).IsChain fun a b => b = a + 1
  latest : ∀ v ∈ volumes, v.1.number.toInt ≤ runs.length
  suffix : recordsOf volumes ++ active <:+ runs.map Prod.fst
  /-- Nothing is missing before an archive is pruned. -/
  complete : recordsOf volumes ++ active = runs.map Prod.fst ∨
    volumes ≠ [] ∧ ∃ earlier a, earlier <+: runs ∧ Listed t₀ dir earlier a ∧
      ∀ v ∈ volumes, a.number < v.1.number

namespace Kept

variable (h : Kept t₀ dir runs t place c volumes active)

include h

theorem run_records : t.run (records dir) = (.ok (recordsOf volumes ++ active), t) :=
  h.shelf.run_records (orderly_of_few h.few) (parsed?_map_recordLine h.storable)

theorem run_archives : t.run (archives dir) = (.ok (volumes.map Prod.fst), t) :=
  h.shelf.run_archives (orderly_of_few h.few)

theorem listed {v : Volume} (hv : v ∈ volumes) : Listed t₀ dir runs v.1 := by
  refine ⟨volumes.map Prod.fst, ?_, List.mem_map_of_mem hv⟩
  rw [h.reached, h.run_archives]

theorem length_active : active.length ≤ runs.length := by
  have hlength := h.suffix.length_le
  rw [List.length_append, List.length_map] at hlength
  omega

theorem number_lt (hruns : runs.length + 1 < 2 ^ 63) :
    ∀ v ∈ volumes, v.1.number < Int64.maxValue := by
  intro v hv
  have hlatest := h.latest v hv
  rw [Int64.lt_iff_toInt_lt]
  exact Int.lt_of_le_of_lt hlatest (by rw [Int64.toInt_maxValue]; omega)

theorem added (hr : r.IsStorable) (hrun : t.run (append dir r m) = (.ok (), t'))
    (hshelf : Shelf t' dir place c' volumes (active.map recordLine ++ [recordLine r]))
    (hwhole : IsWhole (contentOf (c' fileName))) (hgrows : Grows c c') :
    Kept t₀ dir (runs ++ [(r, m)]) t' place c' volumes (active ++ [r]) where
  reached := (run_appendAll_concat h.reached r m).trans hrun
  shelf := by
    rw [List.map_append]
    exact hshelf
  whole := hwhole
  unblocked := hgrows.unblocked h.unblocked
  unused := hgrows.unused h.unused
  storable := List.forall_mem_append.mpr ⟨h.storable, by simpa using hr⟩
  few := h.few
  consecutive := h.consecutive
  latest v hv := by
    have hlatest := h.latest v hv
    rw [List.length_append, List.length_singleton]
    omega
  suffix := by
    rw [List.map_append, ← List.append_assoc]
    exact List.suffix_append_self_iff.mpr h.suffix
  complete := by
    rw [List.map_append, ← List.append_assoc]
    refine h.complete.imp (fun hall => ?_) ?_
    · rw [hall]
      rfl
    · rintro ⟨hne, earlier, a, hearlier, ha⟩
      exact ⟨hne, earlier, a, hearlier.trans (List.prefix_append ..), ha⟩

theorem increasing : volumes.Pairwise fun v w => v.1.number < w.1.number := by
  have hlt : (volumes.map (·.1.number.toInt)).IsChain (· < ·) :=
    h.consecutive.imp fun a b hab => by omega
  exact (List.pairwise_map.mp (List.isChain_iff_pairwise.mp hlt)).imp fun hvw =>
    Int64.lt_iff_toInt_lt.mpr hvw

/-- The new archive gets the number after the last one. -/
theorem consecutive_rotated (hruns : runs.length + 1 < 2 ^ 63) (moved : List HistoryRecord) :
    ((rotated dir volumes moved).map (·.1.number.toInt)).IsChain (fun a b => b = a + 1) ∧
      ∀ v ∈ rotated dir volumes moved, v.1.number.toInt ≤ runs.length + 1 := by
  rcases List.eq_nil_or_concat volumes with rfl | ⟨front, last, rfl⟩
  · refine ⟨.singleton _, fun v hv => ?_⟩
    rw [List.mem_singleton.mp hv]
    exact Int.le_add_of_nonneg_left (Int.natCast_nonneg _)
  rw [List.concat_eq_append] at h ⊢
  have hlast : last ∈ front ++ [last] := by simp
  have hnext : (nextNumber ((front ++ [last]).map Prod.fst)).toInt = last.1.number.toInt + 1 := by
    rw [← toInt_succ (h.number_lt hruns last hlast)]
    simp [nextNumber]
  have hdrop : (front ++ [last]).drop ((front ++ [last]).length + 1 - maxArchives) =
      front.drop ((front ++ [last]).length + 1 - maxArchives) ++ [last] := by
    refine List.drop_append_of_le_length ?_
    rw [List.length_append, List.length_singleton, maxArchives]
    omega
  constructor
  · rw [rotated, List.map_append]
    refine List.IsChain.append ?_ (.singleton _) ?_
    · rw [List.map_drop]
      exact h.consecutive.drop _
    · rw [hdrop, List.map_append, List.map_singleton, List.getLast?_concat]
      rintro _ ⟨⟩ _ ⟨⟩
      exact hnext
  · intro v hv
    have hlatest := h.latest last hlast
    rw [rotated] at hv
    rcases List.mem_append.mp hv with hv | hv
    · have hv := h.latest v (List.mem_of_mem_drop hv)
      omega
    · rw [List.mem_singleton.mp hv, hnext]
      omega

/-- A rotation that prunes removes an archive below all that are left. -/
theorem exists_pruned (hruns : runs.length + 1 < 2 ^ 63)
    (hmany : volumes.length + 1 - maxArchives ≠ 0) (moved : List HistoryRecord) :
    ∃ v ∈ volumes, ∀ w ∈ rotated dir volumes moved, v.1.number < w.1.number := by
  obtain ⟨-, hnext⟩ := h.shelf.lt_nextNumber (h.number_lt hruns)
  obtain ⟨k, hk⟩ := Nat.exists_eq_succ_of_ne_zero hmany
  cases volumes with
  | nil => cases hk
  | cons first rest =>
    refine ⟨first, List.mem_cons_self, fun w hw => ?_⟩
    rw [rotated, hk] at hw
    rcases List.mem_append.mp hw with hw | hw
    · exact (List.pairwise_cons.mp h.increasing).1 w (List.mem_of_mem_drop hw)
    · rw [List.mem_singleton.mp hw]
      exact hnext first List.mem_cons_self

/-- A rotation that prunes removes an archive that was listed. -/
theorem complete_rotated (hruns : runs.length + 1 < 2 ^ 63) (moved : List HistoryRecord) :
    volumes.drop (volumes.length + 1 - maxArchives) = volumes ∧
        recordsOf volumes ++ active = runs.map Prod.fst ∨
      ∃ earlier a, earlier <+: runs ∧ Listed t₀ dir earlier a ∧
        ∀ v ∈ rotated dir volumes moved, a.number < v.1.number := by
  obtain ⟨-, hnext⟩ := h.shelf.lt_nextNumber (h.number_lt hruns)
  by_cases hk : volumes.length + 1 - maxArchives = 0
  · rw [rotated, hk]
    refine h.complete.imp (fun hall => ⟨rfl, hall⟩) ?_
    rintro ⟨hne, earlier, a, hearlier, hlisted, hbelow⟩
    refine ⟨earlier, a, hearlier, hlisted, fun v hv => ?_⟩
    rcases List.mem_append.mp hv with hv | hv
    · exact hbelow v hv
    · obtain ⟨w, hw⟩ := List.exists_mem_of_ne_nil volumes hne
      rw [List.mem_singleton.mp hv]
      exact Int64.lt_trans (hbelow w hw) (hnext w hw)
  · obtain ⟨v, hv, hbelow⟩ := h.exists_pruned hruns hk moved
    exact .inr ⟨runs, v.1, List.prefix_refl _, h.listed hv, hbelow⟩

omit h in
/-- A rotation keeps the records, but for those of pruned archives. -/
theorem recordsOf_moved {j : Nat} (hj : j ≤ active.length) :
    recordsOf (rotated dir volumes (active.take j)) ++ (active ++ [r]).drop j =
      recordsOf (volumes.drop (volumes.length + 1 - maxArchives)) ++ active ++ [r] := by
  rw [recordsOf_rotated, List.drop_append_of_le_length hj]
  simp [← List.append_assoc (active.take j)]

theorem moved (hr : r.IsStorable) (hruns : runs.length + 1 < 2 ^ 63) {j : Nat}
    (hj : j ≤ active.length) (hrun : t.run (append dir r m) = (.ok (), t'))
    (hshelf : Shelf t' dir place c' (rotated dir volumes (active.take j))
      (((active ++ [r]).drop j).map recordLine))
    (hwhole : IsWhole (contentOf (c' fileName))) (hgrows : Grows c c') :
    Kept t₀ dir (runs ++ [(r, m)]) t' place c' (rotated dir volumes (active.take j))
      ((active ++ [r]).drop j) := by
  have hold := List.take_append_drop (volumes.length + 1 - maxArchives) volumes
  have hmap : (runs ++ [(r, m)]).map Prod.fst = runs.map Prod.fst ++ [r] := by simp
  obtain ⟨hchain, hlatest⟩ := h.consecutive_rotated hruns (active.take j)
  refine ⟨(run_appendAll_concat h.reached r m).trans hrun, hshelf, hwhole,
    hgrows.unblocked h.unblocked, hgrows.unused h.unused, ?_, length_rotated_le .., hchain,
    by simpa using hlatest, ?_, ?_⟩
  · intro x hx
    rcases List.mem_append.mp (List.mem_of_mem_drop hx) with hx | hx
    · exact h.storable x hx
    · rw [List.mem_singleton.mp hx]
      exact hr
  · rw [recordsOf_moved hj, hmap, List.suffix_append_self_iff]
    refine List.IsSuffix.trans ?_ h.suffix
    refine ⟨recordsOf (volumes.take (volumes.length + 1 - maxArchives)), ?_⟩
    rw [← List.append_assoc, ← recordsOf_append, hold]
  · rw [recordsOf_moved hj, hmap]
    rcases h.complete_rotated hruns (active.take j) with ⟨hdrop, hall⟩ | ⟨earlier, a, hearlier, ha⟩
    · exact .inl (by rw [hdrop, hall])
    · exact .inr ⟨by simp [rotated], earlier, a, hearlier.trans (List.prefix_append ..), ha⟩

/-- The records of the lines that a rotation moves out of the active file. -/
theorem parsed?_moved (m : Int64) :
    parsed? ((active.map recordLine).take (active.length + 1 - m.toNatClampNeg)) =
      some (active.take (active.length + 1 - m.toNatClampNeg)) := by
  rw [← List.map_take]
  exact parsed?_map_recordLine fun x hx => h.storable x (List.mem_of_mem_take hx)

/-- One more run succeeds where its files have room. -/
theorem exists_run_append (hroom : ∀ name, IsName name → name.length ≤ 44 → HasRoom dir name)
    (hruns : runs.length + 1 < 2 ^ 63) (hr : r.IsStorable) (m : Int64) :
    ∃ t', t.run (append dir r m) = (.ok (), t') := by
  have hpositive := (h.shelf.lt_nextNumber (h.number_lt hruns)).1
  obtain ⟨t₁, c₁, h₁, hwhole, hgrows, hend⟩ :=
    h.shelf.run_append h.whole (orderly_of_few h.few) (h.number_lt hruns) hr m
  rw [List.length_map] at hend
  obtain ⟨hrun, -⟩ | ⟨-, -, hrotation⟩ := hend
  · exact ⟨t₁, hrun⟩
  have hrotation := hrotation _ (h.parsed?_moved m)
  generalize t.run (append dir r m) = result at hrotation ⊢
  cases hrotation with
  | refused cause hnot =>
    have hname := isName_of_archive (entry_of_archiveName hpositive)
    exact absurd ⟨hroom _ hname (length_archiveName _), hgrows.unblocked h.unblocked _⟩ hnot
  | doubled cause _ hnot =>
    have hroom := hroom (temporaryName 1000000000) (isName_temporaryName _)
      (length_temporaryName (by decide))
    exact absurd hroom (hnot (hgrows.unused h.unused))
  | done _ _ _ => exact ⟨_, rfl⟩

/-- One more run that succeeds keeps everything, unless it prunes an archive, and
its record is the last one. -/
theorem step_of_ok (hruns : runs.length + 1 < 2 ^ 63) (hr : r.IsStorable)
    (hok : t.run (append dir r m) = (.ok (), t')) :
    ∃ c' volumes' active', Kept t₀ dir (runs ++ [(r, m)]) t' place c' volumes' active' ∧
      active'.getLast? = some r ∧ (0 < m → (active'.length : Int) ≤ m.toInt) ∧
      (recordsOf volumes' ++ active' = recordsOf volumes ++ active ++ [r] ∨
        ∃ v ∈ volumes, ∀ w ∈ volumes', v.1.number < w.1.number) := by
  have hactive := h.length_active
  obtain ⟨t₁, c₁, h₁, hwhole, hgrows, hend⟩ :=
    h.shelf.run_append h.whole (orderly_of_few h.few) (h.number_lt hruns) hr m
  rw [List.length_map] at hend
  obtain ⟨hrun, hfew⟩ | ⟨hm, -, hrotation⟩ := hend
  · obtain rfl : t' = t₁ := congrArg Prod.snd (hok.symm.trans hrun)
    refine ⟨c₁, volumes, active ++ [r], h.added hr hrun h₁ hwhole hgrows, by simp, fun hm => ?_,
      .inl (List.append_assoc ..).symm⟩
    have hle := Int64.le_iff_toInt_le.mp (hfew hm)
    rw [Int64.toInt_ofNat_of_lt (by omega)] at hle
    simpa using hle
  have hkeep := toNatClampNeg_pos hm
  have hj : active.length + 1 - m.toNatClampNeg ≤ active.length := by omega
  have hrotation := hrotation _ (h.parsed?_moved m)
  generalize hresult : t.run (append dir r m) = result at hrotation
  rw [hok] at hresult
  cases hrotation with
  | refused cause hnot => cases hresult
  | doubled cause _ hnot => cases hresult
  | @done t₂ c' h' hcontent hgrows' =>
    obtain rfl : t' = t₂ := congrArg Prod.snd hresult
    have hlines : (active.map recordLine ++ [recordLine r]).drop
        ((active.map recordLine ++ [recordLine r]).length - m.toNatClampNeg) =
          ((active ++ [r]).drop (active.length + 1 - m.toNatClampNeg)).map recordLine := by
      simp [List.map_drop]
    have hreread : reread ∘ recordLine = recordLine := funext reread_recordLine
    have hstorable := List.forall_mem_append.mpr ⟨h.storable, (by simpa using hr : ∀ x ∈ [r], _)⟩
    rw [hlines, List.map_map, hreread] at h'
    rw [hlines] at hcontent
    refine ⟨c', _, _, h.moved hr hruns hj hok h' ?_ (hgrows.trans hgrows'), ?_, fun _ => ?_, ?_⟩
    · rw [hcontent]
      refine isWhole_flatten fun l hl => ?_
      obtain ⟨x, hx, rfl⟩ := List.mem_map.mp hl
      exact isLine_recordLine (hstorable x (List.mem_of_mem_drop hx))
    · rw [List.drop_append_of_le_length hj]
      simp
    · rw [List.length_drop, List.length_append, List.length_singleton]
      rw [Int64.toNatClampNeg] at *
      omega
    · by_cases hk : volumes.length + 1 - maxArchives = 0
      · refine .inl ?_
        rw [recordsOf_moved hj, hk, List.drop_zero]
      · exact .inr (h.exists_pruned hruns hk _)

/-- One more run succeeds and keeps everything, and its record is the last one. -/
theorem step (hroom : ∀ name, IsName name → name.length ≤ 44 → HasRoom dir name)
    (hruns : runs.length + 1 < 2 ^ 63) (hr : r.IsStorable) (m : Int64) :
    ∃ t' c' volumes' active', Kept t₀ dir (runs ++ [(r, m)]) t' place c' volumes' active' ∧
      active'.getLast? = some r ∧ (0 < m → (active'.length : Int) ≤ m.toInt) := by
  obtain ⟨t', hok⟩ := h.exists_run_append hroom hruns hr m
  obtain ⟨c', volumes', active', hkept, hlast, hbound, -⟩ := h.step_of_ok hruns hr hok
  exact ⟨t', c', volumes', active', hkept, hlast, hbound⟩

omit h in
theorem empty (hproper : t.IsProper) (hempty : t.listAt dir = .ok [])
    (hroom : HasRoom dir fileName) : ∃ place c, Kept t dir [] t place c [] [] := by
  obtain ⟨place, c, hfolder⟩ := hproper.folder (Tree.isDirectory_of_listAt hempty)
  have hentries : t.entries place = [] := Except.ok.inj (hfolder.listAt.symm.trans hempty)
  have hnone : ∀ name, c name = none := by
    intro name
    cases hc : c name with
    | none => rfl
    | some node =>
      have hmem := hfolder.mem_entries (e := ⟨name, node.isDirectory⟩) |>.mpr (by rw [hc]; rfl)
      rw [hentries] at hmem
      cases hmem
  refine ⟨place, c, rfl, ⟨hfolder, ?_, ?_, nofun, hroom, .inl ⟨hnone _, rfl⟩⟩, ?_, ?_, hnone _,
    nofun, Nat.zero_le _, .nil, nofun, List.suffix_refl _, .inl rfl⟩
  · rw [hentries]
    exact nofun
  · rw [archivesIn, hentries]
    exact ⟨.nil, fun _ => rfl⟩
  · rw [hnone]
    exact .inl rfl
  · rintro name ⟨mode, hmode⟩
    rw [hnone] at hmode
    cases hmode

omit h in
theorem run (h : Kept t₀ dir [] t₀ place c [] [])
    (hroom : ∀ name, IsName name → name.length ≤ 44 → HasRoom dir name)
    (hruns : runs.length < 2 ^ 63) (hstorable : ∀ x ∈ runs, x.1.IsStorable) :
    ∃ t c volumes active, Kept t₀ dir runs t place c volumes active := by
  induction runs using List.reverseRecOn with
  | nil => exact ⟨t₀, c, [], [], h⟩
  | append_singleton runs x ih =>
    rw [List.forall_mem_append] at hstorable
    rw [List.length_append, List.length_singleton] at hruns
    obtain ⟨t, c, volumes, active, hkept⟩ := ih (by omega) hstorable.1
    obtain ⟨t', c', volumes', active', hkept', -⟩ :=
      hkept.step hroom hruns (hstorable.2 x List.mem_cons_self) x.2
    exact ⟨t', c', volumes', active', hkept'⟩

end Kept

/-- It does not matter when the directory is made. -/
theorem run_appendAll_of_made (hmade : t.run (.makeDirectories dir) = (.ok (), t'))
    (hdir : t'.isDirectory dir = true) (hne : runs ≠ []) :
    t.run (appendAll dir runs) = t'.run (appendAll dir runs) := by
  cases runs with
  | nil => exact absurd rfl hne
  | cons x runs =>
    have hfirst : t.run (appendAll dir (x :: runs)) = _ :=
      Tree.run_task_bind (append dir x.1 x.2) _ t
    have hsecond : t'.run (appendAll dir (x :: runs)) = _ :=
      Tree.run_task_bind (append dir x.1 x.2) _ t'
    rw [hfirst, hsecond, run_append_of_made hmade hdir]

/-- What is left in a state directory after runs that end with `(r, m)`. -/
structure Retains (t : Tree) (dir : Bytes) (runs : List Run) (r : HistoryRecord) (m : Int64)
    (t' : Tree) (kept : List HistoryRecord) (lines : List Bytes) (found : List Archive) : Prop where
  succeeds : t.run (appendAll dir (runs ++ [(r, m)])) = (.ok (), t')
  reads : t'.run (records dir) = (.ok kept, t')
  suffix : kept <:+ runs.map Prod.fst ++ [r]
  last : kept.getLast? = some r
  active : ∃ text, t'.readAt (path dir) = .ok text ∧ lines? text = some lines
  bounded : 0 < m → (lines.length : Int) ≤ m.toInt
  lists : t'.run (archives dir) = (.ok found, t')
  few : found.length ≤ 5
  consecutive : (found.map (·.number.toInt)).IsChain fun a b => b = a + 1
  /-- Every record is there as long as every archive is that was ever listed. -/
  complete : (∀ earlier, earlier <+: runs ++ [(r, m)] → ∀ a, Listed t dir earlier a → a ∈ found) →
    kept = runs.map Prod.fst ++ [r]

/-- Runs from an empty directory on succeed, whatever their bounds, and leave the
last of their records without a gap. -/
theorem records_appendAll {t₁ : Tree} (hproper : t.IsProper)
    (hmade : t.run (.makeDirectories dir) = (.ok (), t₁)) (hempty : t₁.listAt dir = .ok [])
    (hlength : (Path.clean dir).length + 45 < Tree.maxPath) (hruns : runs.length + 1 < 2 ^ 63)
    (hstorable : ∀ x ∈ runs ++ [(r, m)], x.1.IsStorable) :
    ∃ t' kept lines found, Retains t dir runs r m t' kept lines found := by
  have hproper₁ : t₁.IsProper := by
    have hmade' := hproper.makeDirectories dir
    rwa [hmade] at hmade'
  have hdir := Tree.isDirectory_of_listAt hempty
  obtain ⟨_, hopens⟩ := hproper₁.opens hdir
  have hroom : ∀ name, IsName name → name.length ≤ 44 → HasRoom dir name :=
    fun _ => hasRoom_of_length hopens.ne_nil hlength
  rw [List.forall_mem_append] at hstorable
  obtain ⟨place, c, hfirst⟩ := Kept.empty hproper₁ hempty (hroom _ isName_fileName (by decide))
  obtain ⟨t₂, _, _, _, hrun⟩ := hfirst.run hroom (by omega) hstorable.1
  obtain ⟨t', c', volumes, active, h, hlast, hbound⟩ :=
    hrun.step hroom hruns (hstorable.2 (r, m) List.mem_cons_self) m
  have hmap : (runs ++ [(r, m)]).map Prod.fst = runs.map Prod.fst ++ [r] := by simp
  have htext : ∃ text, t'.readAt (path dir) = .ok text ∧
      lines? text = some (active.map recordLine) := by
    rcases h.shelf.active with ⟨-, hnil⟩ | ⟨id, text, mode, hfile, hlines⟩
    · rw [List.map_eq_nil_iff.mp hnil] at hlast
      cases hlast
    · refine ⟨text, ?_, hlines⟩
      rw [path, h.shelf.folder.readAt isName_fileName h.shelf.room, hfile]
  refine ⟨t', _, _, _, ?_, h.run_records, hmap ▸ h.suffix, ?_, htext, ?_, h.run_archives, ?_, ?_,
    fun hthere => ?_⟩
  · rw [run_appendAll_of_made hmade hdir (by simp)]
    exact h.reached
  · rw [List.getLast?_append, hlast]
    rfl
  · simpa using hbound
  · rw [List.length_map]
    exact h.few
  · rw [List.map_map]
    exact h.consecutive
  · rcases h.complete with hall | ⟨-, earlier, a, hearlier, hlisted, hbelow⟩
    · rw [hall, hmap]
    · have hne : earlier ≠ [] := by
        rintro rfl
        obtain ⟨found, hfound, ha⟩ := hlisted
        rw [hfirst.reached, hfirst.run_archives] at hfound
        cases hfound
        cases ha
      have hlisted : Listed t dir earlier a := by
        rwa [Listed, run_appendAll_of_made hmade hdir hne]
      obtain ⟨v, hv, rfl⟩ := List.mem_map.mp (hthere earlier hearlier a hlisted)
      exact absurd (hbelow v hv) Int64.lt_irrefl

/-- Bounds that shrink, grow and are not positive, in a directory that is missing. -/
theorem records_appendAll_missing :
    ∃ t' kept lines found, Retains {} "s"
      [({ runId := "a" }, 0), ({ runId := "b" }, 1), ({ runId := "c" }, -1)] { runId := "d" } 2
      t' kept lines found := by
  have hmade : Tree.run (.makeDirectories "s") {} =
      (.ok (), (Tree.run (.makeDirectories "s") {}).2) := Prod.ext (by decide +kernel) rfl
  exact records_appendAll (Tree.isProper_of_root (by decide) rfl) hmade (by decide +kernel)
    (by decide) (by decide) (by decide +kernel)

end History

end ScanTriage
