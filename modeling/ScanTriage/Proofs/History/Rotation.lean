import ScanTriage.Proofs.History.Shelf

/-!
# Steps of an append

Each step of an append takes one shelf to another: a line is added to the active
file, an archive is put behind the others, the first archives are removed, the
active file is replaced. A step that fails leaves the shelf as it was.
-/

namespace ScanTriage

namespace History

open ScanTriage.Path (IsName)
open ScanTriage.Tree (HasRoom Accepts IsDirectoryIn contentOf)

variable {t t' : Tree} {dir name : Bytes} {place : NodePath} {c c' : Bytes → Option Node}
  {volumes : List Volume} {lines lines' : List Bytes}

/-! ## What a change leaves alone -/

theorem readAt_of_same (h : t.Folder dir place c) (h' : t'.Folder dir place c') (hname : IsName name)
    (hsame : c' name = c name) :
    t'.readAt (Path.join [dir, name]) = t.readAt (Path.join [dir, name]) := by
  by_cases hroom : HasRoom dir name
  · rw [h.readAt hname hroom, h'.readAt hname hroom, hsame]
  · rw [h.readAt_of_not_hasRoom hname hroom, h'.readAt_of_not_hasRoom hname hroom]

/-- Nothing is put in place but files, and none under the name of a temporary
one. -/
def Grows (c c' : Bytes → Option Node) : Prop :=
  ∀ name, c' name = c name ∨ c' name = none ∨
    (∀ n, name ≠ temporaryName n) ∧ ∃ id data mode, c' name = some (.file id data mode)

theorem Grows.refl (c : Bytes → Option Node) : Grows c c := fun _ => .inl rfl

theorem Grows.trans {c'' : Bytes → Option Node} (h : Grows c c') (h' : Grows c' c'') :
    Grows c c'' := by
  intro name
  rcases h' name with hsame | hnew
  · rw [hsame]
    exact h name
  · exact .inr hnew

theorem Grows.unused (h : Grows c c') {n : Nat} (hunused : c (temporaryName n) = none) :
    c' (temporaryName n) = none := by
  rcases h (temporaryName n) with hsame | hnone | ⟨hne, -⟩
  · exact hsame.trans hunused
  · exact hnone
  · exact absurd rfl (hne n)

theorem Grows.update {id : FileId} {data : Bytes} {mode : Nat}
    (hname : ∀ n, name ≠ temporaryName n) : Grows c (Function.update c name (some (.file id data mode))) := by
  intro m
  by_cases hm : m = name
  · exact .inr (.inr ⟨hm ▸ hname, id, data, mode, by rw [hm, Function.update_self]⟩)
  · exact .inl (Function.update_of_ne hm ..)

theorem toInt_succ {n : Int64} (h : n < Int64.maxValue) : (n + 1).toInt = n.toInt + 1 := by
  have hlt : n.toInt < 2 ^ 63 - 1 := Int64.lt_iff_toInt_lt.mp h
  have hle := n.le_toInt
  rw [Int64.toInt_add, Int64.toInt_one, Int.bmod_eq_of_le (by omega) (by omega)]

theorem lt_succ {n : Int64} (h : n < Int64.maxValue) : n < n + 1 := by
  rw [Int64.lt_iff_toInt_lt, toInt_succ h]
  omega

/-- An archive holds the records of the text that was packed. -/
theorem parseArchive_pack {text : Bytes} {ls : List Bytes} {rs : List HistoryRecord}
    (hlines : lines? text = some ls) (hparsed : parsed? ls = some rs) :
    parseArchive (Gzip.pack text) = .ok rs := by
  rw [parseArchive, Gzip.unpack_pack]
  simp only [hlines]
  exact parse_eq_ok.mpr hparsed

namespace Shelf

theorem exists_name (h : Shelf t dir place c volumes lines) {v : Volume} (hv : v ∈ volumes) :
    ∃ name id data mode, c name = some (.file id data mode) ∧ IsName name ∧
      Entry.of ⟨name, false⟩ = .archive v.1.number ∧ v.1.path = Path.join [dir, name] ∧
        ∀ name', v.1.path = Path.join [dir, name'] → IsName name' → name' = name := by
  obtain ⟨name, id, data, mode, hfile, harchive, hpath⟩ :=
    (mem_archivesIn h.folder).mp (h.ranked.mem_iff.mp (List.mem_map_of_mem hv))
  have hname : IsName name := isName_of_archive harchive
  exact ⟨name, id, data, mode, hfile, hname, harchive, hpath, fun name' hpath' hname' =>
    join_inj h.folder.opens.ne_nil hname' hname (hpath'.symm.trans hpath)⟩

theorem holds_of_same (h : Shelf t dir place c volumes lines) (h' : t'.Folder dir place c')
    {v : Volume} (hv : v ∈ volumes)
    (hsame : ∀ name, v.1.path = Path.join [dir, name] → IsName name → c' name = c name) :
    Holds t' v := by
  obtain ⟨name, -, -, -, -, hname, -, hpath, -⟩ := h.exists_name hv
  obtain ⟨packed, hread, hparse⟩ := h.held v hv
  rw [hpath] at hread
  refine ⟨packed, ?_, hparse⟩
  rw [hpath, readAt_of_same h.folder h' hname (hsame name hpath hname), hread]

theorem sensible_of_same (h : Shelf t dir place c volumes lines) (h' : t'.Folder dir place c')
    (hsame : ∀ name, c' name = c name ∨ c' name = none ∨
      ∀ isDirectory, Entry.of ⟨name, isDirectory⟩ ≠ .overlapping) :
    ∀ e ∈ t'.entries place, Entry.of e ≠ .overlapping := by
  intro e he
  rw [h'.mem_entries] at he
  rcases hsame e.name with hname | hname | hname
  · rw [hname] at he
    exact h.sensible e (h.folder.mem_entries.mpr he)
  · rw [hname] at he
    cases he
  · exact hname e.isDirectory

/-- A change at names that are no archives. -/
theorem change_foreign (h : Shelf t dir place c volumes lines) (h' : t'.Folder dir place c')
    (hsame : ∀ n, ¬ IsForeign n → c' n = c n) (hactive : ActiveLines c' lines') :
    Shelf t' dir place c' volumes lines' where
  folder := h'
  sensible := by
    refine h.sensible_of_same h' fun n => ?_
    by_cases hforeign : IsForeign n
    · exact .inr (.inr fun isDirectory => by simp [hforeign isDirectory])
    · exact .inl (hsame n hforeign)
  ranked := by
    rw [archivesIn_of_foreign h.folder h' hsame]
    exact h.ranked
  held v hv := by
    obtain ⟨name, -, -, -, -, -, harchive, -, honly⟩ := h.exists_name hv
    refine h.holds_of_same h' hv fun name' hpath' hname' => hsame name' fun hforeign => ?_
    rw [← honly name' hpath' hname', hforeign false] at harchive
    cases harchive
  room := h.room
  active := hactive

theorem not_isDirectoryIn (h : Shelf t dir place c volumes lines) : ¬ IsDirectoryIn c fileName := by
  rintro ⟨m, hm⟩
  rcases h.active with ⟨hnone, -⟩ | ⟨id, text, mode, hfile, -⟩
  · rw [hnone] at hm
    cases hm
  · rw [hfile] at hm
    cases hm

/-! ## One archive more or less -/

/-- An archive with a number above all others goes to the end. -/
theorem add (h : Shelf t dir place c volumes lines) {n : Int64} (hn : 1 ≤ n)
    (habove : ∀ v ∈ volumes, v.1.number < n) (hnone : c (archiveName n) = none)
    (hroom : HasRoom dir (archiveName n)) {id : FileId} {text : Bytes} {mode : Nat}
    (h' : t'.Folder dir place
      (Function.update c (archiveName n) (some (.file id (Gzip.pack text) mode))))
    {ls : List Bytes} {rs : List HistoryRecord} (hlines : lines? text = some ls)
    (hparsed : parsed? ls = some rs) :
    Shelf t' dir place (Function.update c (archiveName n) (some (.file id (Gzip.pack text) mode)))
      (volumes ++ [(⟨n, Path.join [dir, archiveName n]⟩, rs)]) lines := by
  have harchive := entry_of_archiveName hn
  have hname : IsName (archiveName n) := isName_of_archive harchive
  have hfile := Function.update_self (archiveName n) (some (Node.file id (Gzip.pack text) mode)) c
  have hsame : ∀ m, m ≠ archiveName n →
      Function.update c (archiveName n) (some (.file id (Gzip.pack text) mode)) m = c m :=
    fun m hm => Function.update_of_ne hm ..
  obtain ⟨hothers, hnew⟩ := archivesIn_of_added h.folder h' harchive hnone hfile hsame
  refine ⟨h', ?_, ?_, ?_, h.room, ?_⟩
  · refine h.sensible_of_same h' fun m => ?_
    by_cases hm : m = archiveName n
    · refine .inr (.inr fun isDirectory => ?_)
      rw [hm]
      cases isDirectory with
      | false => simp [harchive]
      | true => simp [Entry.of]
    · exact .inl (hsame m hm)
  · rw [List.map_append]
    refine h.ranked.concat hothers hnew (nodup_archivesIn h') fun a ha => ?_
    obtain ⟨v, hv, rfl⟩ := List.mem_map.mp ha
    exact habove v hv
  · intro v hv
    rcases List.mem_append.mp hv with hv | hv
    · refine h.holds_of_same h' hv fun m hpath hm => hsame m ?_
      rintro rfl
      obtain ⟨name, id, data, mode, hfile, -, -, -, honly⟩ := h.exists_name hv
      rw [← honly _ hpath hm, hnone] at hfile
      cases hfile
    · rw [List.mem_singleton.mp hv]
      refine ⟨Gzip.pack text, ?_, ?_⟩
      · rw [h'.readAt hname hroom, hfile]
      · exact parseArchive_pack hlines hparsed
  · have hactive := h.active
    unfold ActiveLines at hactive ⊢
    rwa [hsame _ (archiveName_ne n).symm]

/-- A volume has room, since it can be read. -/
theorem hasRoom (h : Shelf t dir place c volumes lines) {v : Volume} (hv : v ∈ volumes)
    (hname : IsName name) (hpath : v.1.path = Path.join [dir, name]) : HasRoom dir name := by
  by_contra hroom
  obtain ⟨packed, hread, -⟩ := h.held v hv
  rw [hpath, h.folder.readAt_of_not_hasRoom hname hroom] at hread
  cases hread

theorem remove {v : Volume} (h : Shelf t dir place c (v :: volumes) lines) :
    ∃ t' c', t.removeAt v.1.path = (.ok (), t') ∧ Shelf t' dir place c' volumes lines ∧
      c' fileName = c fileName ∧ Grows c c' := by
  obtain ⟨name, id, data, mode, hfile, hname, harchive, hpath, -⟩ :=
    h.exists_name List.mem_cons_self
  obtain ⟨t', hremove, h'⟩ :=
    h.folder.removeAt hname (h.hasRoom List.mem_cons_self hname hpath) hfile
  have hgone := Function.update_self name (none : Option Node) c
  have hsame : ∀ m, m ≠ name → Function.update c name none m = c m :=
    fun m hm => Function.update_of_ne hm ..
  have hactive : fileName ≠ name := by
    rintro rfl
    rw [isForeign_fileName false] at harchive
    cases harchive
  have harchive_eq : v.1 = ⟨v.1.number, Path.join [dir, name]⟩ := by rw [← hpath]
  have hnodup : (v.1 :: volumes.map Prod.fst).Nodup :=
    h.ranked.perm.nodup_iff.mpr (nodup_archivesIn h.folder)
  refine ⟨t', _, by rw [hpath, hremove], ⟨h', ?_, ?_, ?_, h.room, ?_⟩, hsame _ hactive, ?_⟩
  · refine h.sensible_of_same h' fun m => ?_
    by_cases hm : m = name
    · exact .inr (.inl (hm ▸ hgone))
    · exact .inl (hsame m hm)
  · rw [archivesIn_of_removed h.folder h' harchive hgone hsame, ← harchive_eq]
    exact h.ranked.tail (nodup_archivesIn h.folder)
  · intro w hw
    refine h.holds_of_same h' (List.mem_cons_of_mem _ hw) fun m hpath' hm => hsame m ?_
    rintro rfl
    -- A volume of the same path would be the one that is removed.
    obtain ⟨name, -, -, -, -, -, harchive', -, honly⟩ := h.exists_name (List.mem_cons_of_mem _ hw)
    rw [← honly m hpath' hm, harchive, Entry.archive.injEq] at harchive'
    have hsame : w.1 = v.1 := by
      rw [harchive_eq, harchive', ← hpath']
    exact (List.nodup_cons.mp hnodup).1 (hsame ▸ List.mem_map_of_mem hw)
  · have hactive' := h.active
    unfold ActiveLines at hactive' ⊢
    rwa [hsame _ hactive]
  · intro m
    by_cases hm : m = name
    · exact .inr (.inl (hm ▸ hgone))
    · exact .inl (hsame m hm)

/-! ## Pruning -/

/-- Pruning removes archives from the front. -/
theorem run_prune (h : Shelf t dir place c volumes lines) {k : Nat} (hk : k ≤ volumes.length) :
    ∃ t' c', t.run (prune k (volumes.map Prod.fst)) = (.ok (), t') ∧
      Shelf t' dir place c' (volumes.drop k) lines ∧ c' fileName = c fileName ∧ Grows c c' := by
  induction k generalizing t c volumes with
  | zero => exact ⟨t, c, rfl, h, rfl, .refl c⟩
  | succ k ih =>
    cases volumes with
    | nil => cases hk
    | cons v volumes =>
      obtain ⟨t₁, c₁, hremove, h₁, hactive₁, hgrows₁⟩ := h.remove
      obtain ⟨t', c', hprune, h', hactive', hgrows'⟩ := ih h₁ (Nat.le_of_succ_le_succ hk)
      refine ⟨t', c', ?_, h', hactive'.trans hactive₁, hgrows₁.trans hgrows'⟩
      exact (Tree.run_task_ok (Tree.run_orTell_ok (p := .perform (.remove _)) hremove) _).trans
        hprune

/-! ## Replacing the active file -/

/-- A temporary file gets a name of its own kind, the first one if it is not in
use. -/
theorem temporaryPath_eq (h : t.Folder dir place c) :
    ∃ n, t.temporaryPath (Path.directory (path dir)) "triage-history." =
        Path.join [dir, temporaryName n] ∧
      (c (temporaryName 1000000000) = none → n = 1000000000) := by
  have hdirectory : Path.directory (path dir) = Path.clean dir :=
    Path.directory_join h.opens.ne_nil isName_fileName
  have hcandidate : ∀ n, Path.join [Path.directory (path dir), temporaryName n] =
      Path.join [dir, temporaryName n] := fun n => by
    rw [hdirectory, Path.join_clean h.opens.ne_nil (isName_temporaryName n)]
  have hpath : t.temporaryPath (Path.directory (path dir)) "triage-history." =
      Path.join [Path.directory (path dir), temporaryName (1000000000 +
        ((List.range t.nodes.length).find? fun n =>
          t.isUnused (Path.join [Path.directory (path dir), temporaryName (1000000000 + n)])).getD
            t.nodes.length)] := rfl
  rw [hpath, hcandidate]
  refine ⟨_, rfl, fun hunused => ?_⟩
  have hlookup : ∃ reason, t.lookup (Path.join [dir, temporaryName 1000000000]) = .error reason := by
    by_cases hroom : HasRoom dir (temporaryName 1000000000)
    · refine ⟨.notFound, ?_⟩
      rw [h.lookup_join (isName_temporaryName _) hroom, hunused]
    · exact ⟨_, Tree.lookup_of_error
        ((h.opens.resolve_join (isName_temporaryName _)).trans (if_neg hroom))⟩
  obtain ⟨reason, hlookup⟩ := hlookup
  cases t.nodes.length with
  | zero => rfl
  | succ count =>
    rw [List.range_succ_eq_map, List.find?_cons_of_pos]
    · rfl
    · simp [Tree.isUnused, hcandidate, hlookup]

theorem update_foreign (h : Shelf t dir place c volumes lines) {node? : Option Node}
    (hname : IsForeign name) (hne : name ≠ fileName)
    (h' : t'.Folder dir place (Function.update c name node?)) :
    Shelf t' dir place (Function.update c name node?) volumes lines := by
  refine h.change_foreign h' (fun n hn => ?_) ?_
  · refine Function.update_of_ne ?_ ..
    rintro rfl
    exact hn hname
  · have hactive := h.active
    unfold ActiveLines at hactive ⊢
    rwa [Function.update_of_ne hne.symm]

theorem writeTemporaryAt (h : Shelf t dir place c volumes lines) (data : Bytes) :
    ∃ n, (c (temporaryName 1000000000) = none → n = 1000000000) ∧
      ((∃ fault, t.writeTemporaryAt (Path.directory (path dir)) "triage-history." data =
          (.error fault, t) ∧ ¬ Accepts dir c (temporaryName n)) ∨
        ∃ id mode t', t.writeTemporaryAt (Path.directory (path dir)) "triage-history." data =
            (.ok (Path.join [dir, temporaryName n]), t') ∧ HasRoom dir (temporaryName n) ∧
          Shelf t' dir place
            (Function.update c (temporaryName n) (some (.file id data mode))) volumes lines) := by
  obtain ⟨n, hpath, hfirst⟩ := temporaryPath_eq h.folder
  have hname := isName_temporaryName n
  refine ⟨n, hfirst, ?_⟩
  by_cases haccepts : Accepts dir c (temporaryName n)
  · obtain ⟨id, mode, t', hedit, h'⟩ := h.folder.editAt hname haccepts 0o600 fun _ => data
    refine .inr ⟨id, mode, t', ?_, haccepts.1, ?_⟩
    · simp only [Tree.writeTemporaryAt, hpath, hedit]
    · exact h.update_foreign (isForeign_temporaryName n) (temporaryName_ne n) h'
  · obtain ⟨fault, hedit⟩ := h.folder.editAt_of_not_accepts hname haccepts 0o600 fun _ => data
    refine .inl ⟨fault, ?_, haccepts⟩
    simp only [Tree.writeTemporaryAt, hpath, hedit]

/-- A temporary file can take the place of the active one. -/
theorem renameTemporary (h : Shelf t dir place c volumes lines) {n : Nat}
    (hroom : HasRoom dir (temporaryName n)) {id : FileId} {data : Bytes} {mode : Nat}
    (hfile : c (temporaryName n) = some (.file id data mode)) (hlines : lines? data = some lines') :
    ∃ t' c', t.renameAt (Path.join [dir, temporaryName n]) (path dir) = (.ok (), t') ∧
      Shelf t' dir place c' volumes lines' ∧ contentOf (c' fileName) = data ∧ Grows c c' ∧
        c' (temporaryName n) = none := by
  obtain ⟨t', hrename, h'⟩ := h.folder.renameAt (isName_temporaryName n) isName_fileName hroom
    h.room hfile h.not_isDirectoryIn (temporaryName_ne n)
  rw [hfile] at h'
  refine ⟨t', _, hrename, h.change_foreign h' ?_ ?_, ?_, ?_, ?_⟩
  · intro m hm
    have hne : m ≠ temporaryName n := fun h => hm (h ▸ isForeign_temporaryName n)
    have hne' : m ≠ fileName := fun h => hm (h ▸ isForeign_fileName)
    rw [Function.update_of_ne hne', Function.update_of_ne hne]
  · exact .inr ⟨id, data, mode, Function.update_self .., hlines⟩
  · rw [Function.update_self]
    rfl
  · intro m
    by_cases hm' : m = fileName
    · exact .inr (.inr ⟨fun n => hm' ▸ (temporaryName_ne n).symm, id, data, mode,
        by rw [hm', Function.update_self]⟩)
    rw [Function.update_of_ne hm']
    by_cases hm : m = temporaryName n
    · exact .inr (.inl (by rw [hm, Function.update_self]))
    · exact .inl (Function.update_of_ne hm ..)
  · rw [Function.update_of_ne (temporaryName_ne n), Function.update_self]

/-- The active file gets other lines, or the temporary file could not be
written and nothing changes. -/
theorem run_replaceFile (h : Shelf t dir place c volumes lines) {data : Bytes}
    (hlines : lines? data = some lines') :
    (∃ fault, t.run (replaceFile (path dir) data) = (.error fault, t) ∧
        (c (temporaryName 1000000000) = none → ¬ HasRoom dir (temporaryName 1000000000))) ∨
      ∃ t' c', t.run (replaceFile (path dir) data) = (.ok (), t') ∧
        Shelf t' dir place c' volumes lines' ∧ contentOf (c' fileName) = data ∧ Grows c c' := by
  obtain ⟨n, hfirst, ⟨fault, hwrite, hnot⟩ | ⟨id, mode, t₁, hwrite, hroom, h₁⟩⟩ :=
    h.writeTemporaryAt data
  · refine .inl ⟨fault, ?_, fun hunused hroom => hnot ?_⟩
    · exact Tree.run_bind_of_run (p := .perform (.writeTemporary ..)) hwrite _
    · rw [hfirst hunused]
      exact ⟨hroom, fun ⟨m, hm⟩ => by rw [hunused] at hm; cases hm⟩
  · obtain ⟨t', c', hrename, h', hcontent, hgrows, hgone⟩ :=
      h₁.renameTemporary hroom (Function.update_self ..) hlines
    refine .inr ⟨t', c', ?_, h', hcontent, fun m => ?_⟩
    · refine (Tree.run_bind_of_run (p := .perform (.writeTemporary ..)) hwrite _).trans ?_
      exact Tree.run_bind_of_run (p := .perform (.rename ..)) hrename _
    · by_cases hm : m = temporaryName n
      · exact .inr (.inl (hm ▸ hgone))
      · have hm' := hgrows m
        rwa [Function.update_of_ne hm] at hm'

/-! ## Rotating -/

theorem clean (h : Shelf t dir place c volumes lines) :
    Shelf t (Path.clean dir) place c volumes lines where
  folder := by
    refine h.folder.clean (Nat.lt_of_le_of_lt ?_ h.room.1)
    exact Path.length_clean_le h.folder.opens.ne_nil isName_fileName
  sensible := h.sensible
  ranked := by
    have harchives : archivesIn t (Path.clean dir) place = archivesIn t dir place := by
      refine List.filterMap_congr fun e _ => ?_
      unfold archiveOf?
      split
      · next n hn => rw [Path.join_clean h.folder.opens.ne_nil (isName_of_archive hn)]
      · rfl
    rw [harchives]
    exact h.ranked
  held := h.held
  room := by
    rw [HasRoom, Path.join_clean h.folder.opens.ne_nil isName_fileName]
    exact h.room
  active := h.active

theorem one_le_number (h : Shelf t dir place c volumes lines) {v : Volume} (hv : v ∈ volumes) :
    1 ≤ v.1.number := by
  obtain ⟨_, _, _, _, _, _, harchive, _⟩ := h.exists_name hv
  exact (entry_of_archive harchive).2.1

/-- The number of the next archive is above all others. -/
theorem lt_nextNumber (h : Shelf t dir place c volumes lines)
    (hnumbers : ∀ v ∈ volumes, v.1.number < Int64.maxValue) :
    1 ≤ nextNumber (volumes.map Prod.fst) ∧
      ∀ v ∈ volumes, v.1.number < nextNumber (volumes.map Prod.fst) := by
  rcases List.eq_nil_or_concat volumes with rfl | ⟨front, last, rfl⟩
  · exact ⟨by decide, nofun⟩
  · have hlast : last ∈ front.concat last := by simp
    have hnext : nextNumber ((front.concat last).map Prod.fst) = last.1.number + 1 := by
      simp [nextNumber]
    have hlt := lt_succ (hnumbers last hlast)
    rw [hnext]
    refine ⟨Int64.le_of_lt (Int64.lt_of_le_of_lt (h.one_le_number hlast) hlt), fun v hv => ?_⟩
    refine Int64.lt_of_le_of_lt ?_ hlt
    have hsorted := h.ranked.sorted
    rw [List.concat_eq_append, List.map_append, List.pairwise_append] at hsorted
    rw [List.concat_eq_append, List.mem_append] at hv
    rcases hv with hv | hv
    · exact hsorted.2.2 v.1 (List.mem_map_of_mem hv) last.1 (by simp)
    · rw [List.mem_singleton.mp hv]
      exact Int64.le_refl _

/-- A number above all others is not in use, but a directory may be in its
place. -/
theorem archiveName_eq_none (h : Shelf t dir place c volumes lines) {n : Int64} (hn : 1 ≤ n)
    (habove : ∀ v ∈ volumes, v.1.number < n) (hnot : ¬ IsDirectoryIn c (archiveName n)) :
    c (archiveName n) = none := by
  rcases hc : c (archiveName n) with _ | ⟨id, data, mode⟩ | mode
  · rfl
  · have hmem : (⟨n, Path.join [dir, archiveName n]⟩ : Archive) ∈ volumes.map Prod.fst :=
      h.ranked.mem_iff.mpr ((mem_archivesIn h.folder).mpr
        ⟨_, id, data, mode, hc, entry_of_archiveName hn, rfl⟩)
    obtain ⟨v, hv, hvn⟩ := List.mem_map.mp hmem
    have hlt := habove v hv
    rw [hvn] at hlt
    exact absurd hlt Int64.lt_irrefl
  · exact absurd ⟨mode, hc⟩ hnot

end Shelf

/-- The volumes after a rotation: a new one at the end, and as many gone at the
front as are too many. -/
def rotated (dir : Bytes) (volumes : List Volume) (moved : List HistoryRecord) : List Volume :=
  let number := nextNumber (volumes.map Prod.fst)
  volumes.drop (volumes.length + 1 - maxArchives) ++
    [(⟨number, Path.join [dir, archiveName number]⟩, moved)]

theorem recordsOf_rotated (dir : Bytes) (volumes : List Volume) (moved : List HistoryRecord) :
    recordsOf (rotated dir volumes moved) =
      recordsOf (volumes.drop (volumes.length + 1 - maxArchives)) ++ moved := by
  rw [rotated, recordsOf_append]
  simp [recordsOf]

theorem length_rotated_le (dir : Bytes) (volumes : List Volume) (moved : List HistoryRecord) :
    (rotated dir volumes moved).length ≤ maxArchives := by
  rw [rotated, List.length_append, List.length_drop, List.length_singleton, maxArchives]
  omega

theorem orderly_of_few (h : volumes.length ≤ maxArchives) : Orderly (volumes.map Prod.fst) := by
  refine .inl ?_
  rw [List.length_map]
  exact Nat.le_trans h (by decide)

/-- How a rotation can end. -/
inductive Rotation (t : Tree) (dir : Bytes) (place : NodePath) (c : Bytes → Option Node)
    (volumes : List Volume) (lines : List Bytes) (keep : Nat) (moved : List HistoryRecord) :
    Except Fault Unit × Tree → Prop
  /-- The archive could not be written. -/
  | refused (cause : Fault)
    (hnot : ¬ Accepts dir c (archiveName (nextNumber (volumes.map Prod.fst)))) :
    Rotation t dir place c volumes lines keep moved
      (.error (.user "Could not write rotated history archive." cause), t)
  /-- The active file could not be replaced, so the lines in the archive are
  still in it too. -/
  | doubled (cause : Fault) {t' : Tree} {c' : Bytes → Option Node}
    (shelf : Shelf t' dir place c' (rotated dir volumes moved) lines)
    (hnot : c (temporaryName 1000000000) = none → ¬ HasRoom dir (temporaryName 1000000000)) :
    Rotation t dir place c volumes lines keep moved
      (.error (.user "Could not rotate history file." cause), t')
  | done {t' : Tree} {c' : Bytes → Option Node}
    (shelf : Shelf t' dir place c' (rotated dir volumes moved)
      ((lines.drop (lines.length - keep)).map reread))
    (content : contentOf (c' fileName) = (lines.drop (lines.length - keep)).flatten)
    (grows : Grows c c') :
    Rotation t dir place c volumes lines keep moved (.ok (), t')

/-- A rotation of which the archives and the name of the new one are known. -/
def rotateTo (path target : Bytes) (lines : List Bytes) (keep : Nat) (found : List Archive) :
    FileTask Unit := do
  .orTell "Could not write rotated history archive."
    (.perform (.write target (Gzip.pack (lines.take (lines.length - keep)).flatten)))
  prune (found.length + 1 - maxArchives) (found ++ [⟨nextNumber found, target⟩])
  .orTell "Could not rotate history file."
    (replaceFile path (lines.drop (lines.length - keep)).flatten)

theorem run_rotate_eq {path target : Bytes} {found : List Archive} {keep : Nat}
    (hfound : t.run (archives (Path.directory path)) = (.ok found, t))
    (htarget : Path.join [Path.directory path, archiveName (nextNumber found)] = target) :
    t.run (rotate path lines keep) = t.run (rotateTo path target lines keep found) := by
  subst htarget
  exact (Tree.run_task_lift hfound _).trans (Tree.run_task_ok (a := found) rfl _)

theorem run_write {message path data : Bytes} {id : FileId}
    (h : t.editAt path 0o644 (fun _ => data) = (.ok id, t')) :
    t.run (FileTask.orTell message (.perform (.write path data))) = (.ok (), t') :=
  Tree.run_orTell_ok (p := .perform (.write path data))
    (congrArg (fun x => (x.1.map fun _ => (), x.2)) h)

theorem run_write_error {message path data : Bytes} {fault : FileFault}
    (h : t.editAt path 0o644 (fun _ => data) = (.error fault, t')) :
    t.run (FileTask.orTell message (.perform (.write path data))) =
      (.error (.user message fault.toFault), t') :=
  Tree.run_orTell_error (p := .perform (.write path data))
    (congrArg (fun x => (x.1.map fun _ => (), x.2)) h)

namespace Shelf

theorem isLine (h : Shelf t dir place c volumes lines) : ∀ l ∈ lines, IsLine l := by
  rcases h.active with ⟨-, rfl⟩ | ⟨id, text, mode, -, hlines⟩
  · exact nofun
  · exact isLine_of_mem_lines? hlines

theorem run_rotateTo (h : Shelf t dir place c volumes lines)
    (hnumbers : ∀ v ∈ volumes, v.1.number < Int64.maxValue) (keep : Nat)
    {moved : List HistoryRecord} (hmoved : parsed? (lines.take (lines.length - keep)) = some moved)
    (haccepts : Accepts dir c (archiveName (nextNumber (volumes.map Prod.fst)))) :
    Rotation t dir place c volumes lines keep moved
      (t.run (rotateTo (path dir) (Path.join [dir, archiveName (nextNumber (volumes.map Prod.fst))])
        lines keep (volumes.map Prod.fst))) := by
  obtain ⟨hpositive, habove⟩ := h.lt_nextNumber hnumbers
  have hname := isName_of_archive (entry_of_archiveName hpositive)
  have htaken : ∀ l ∈ lines.take (lines.length - keep), IsLine l :=
    fun l hl => h.isLine l (List.mem_of_mem_take hl)
  have hkept : ∀ l ∈ lines.drop (lines.length - keep), IsLine l :=
    fun l hl => h.isLine l (List.mem_of_mem_drop hl)
  obtain ⟨id, mode, t₁, hwrite, hfolder⟩ := h.folder.editAt hname haccepts 0o644
    fun _ => Gzip.pack (lines.take (lines.length - keep)).flatten
  have h₁ := h.add hpositive habove (h.archiveName_eq_none hpositive habove haccepts.2)
    haccepts.1 hfolder (lines?_flatten htaken) ((parsed?_reread htaken).trans hmoved)
  obtain ⟨t₂, c₂, hprune, h₂, -, hgrows₂⟩ := h₁.run_prune (k := volumes.length + 1 - maxArchives)
    (by rw [List.length_append]; exact Nat.sub_le ..)
  rw [List.map_append, ← List.length_map] at hprune
  rw [List.drop_append_of_le_length (by rw [maxArchives]; omega)] at h₂
  have hgrows : Grows c c₂ := (Grows.update (archiveName_ne_temporaryName _)).trans hgrows₂
  have hrun : t.run (rotateTo (path dir)
      (Path.join [dir, archiveName (nextNumber (volumes.map Prod.fst))]) lines keep
        (volumes.map Prod.fst)) = _ :=
    (Tree.run_task_ok (run_write hwrite) _).trans (Tree.run_task_ok hprune _)
  rw [hrun]
  obtain ⟨fault, hreplace, hnot⟩ | ⟨t', c', hreplace, h', hcontent, hgrows'⟩ :=
    h₂.run_replaceFile (lines?_flatten hkept)
  · rw [Tree.run_orTell_error hreplace]
    exact .doubled _ h₂ fun hunused => hnot (hgrows.unused hunused)
  · rw [Tree.run_orTell_ok hreplace]
    exact .done h' hcontent (hgrows.trans hgrows')

theorem run_rotate (h : Shelf t dir place c volumes lines)
    (horder : Orderly (volumes.map Prod.fst))
    (hnumbers : ∀ v ∈ volumes, v.1.number < Int64.maxValue) (keep : Nat)
    {moved : List HistoryRecord} (hmoved : parsed? (lines.take (lines.length - keep)) = some moved) :
    Rotation t dir place c volumes lines keep moved (t.run (rotate (path dir) lines keep)) := by
  have hdirectory : Path.directory (path dir) = Path.clean dir :=
    Path.directory_join h.folder.opens.ne_nil isName_fileName
  have hfound : t.run (archives (Path.directory (path dir))) = (.ok (volumes.map Prod.fst), t) := by
    rw [hdirectory]
    exact h.clean.run_archives horder
  have hname := isName_of_archive (entry_of_archiveName (h.lt_nextNumber hnumbers).1)
  have htarget : Path.join [Path.directory (path dir),
      archiveName (nextNumber (volumes.map Prod.fst))] =
        Path.join [dir, archiveName (nextNumber (volumes.map Prod.fst))] := by
    rw [hdirectory, Path.join_clean h.folder.opens.ne_nil hname]
  rw [run_rotate_eq hfound htarget]
  by_cases haccepts : Accepts dir c (archiveName (nextNumber (volumes.map Prod.fst)))
  · exact h.run_rotateTo hnumbers keep hmoved haccepts
  · obtain ⟨fault, hwrite⟩ := h.folder.editAt_of_not_accepts hname haccepts 0o644
      fun _ => Gzip.pack (lines.take (lines.length - keep)).flatten
    have hrun : t.run (rotateTo (path dir)
        (Path.join [dir, archiveName (nextNumber (volumes.map Prod.fst))]) lines keep
          (volumes.map Prod.fst)) = _ := Tree.run_task_error (run_write_error hwrite) _
    rw [hrun]
    exact .refused _ haccepts

end Shelf

end History

end ScanTriage
