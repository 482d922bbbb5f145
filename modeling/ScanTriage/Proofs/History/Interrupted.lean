import ScanTriage.Proofs.FileSystem.Faults
import ScanTriage.Proofs.History.Append

/-!
# Appending while the file system fails

What the steps of an append leave when any of their commands may fail, and writing
may stop in the middle. The message of the fault tells which records can be read
afterwards (`Leaves`), and where a file was cut short, what is to be undone before
they can be read.
-/

namespace ScanTriage

namespace History

open ScanTriage.Path (IsName)
open ScanTriage.Tree (HasRoom Accepts contentOf IsFault CutsShort)

variable {t t' : Tree} {dir name : Bytes} {place : NodePath} {c c' : Bytes → Option Node}
  {volumes : List Volume} {lines lines' : List Bytes} {r : HistoryRecord}
  {before rs : List HistoryRecord} {answer : Except Fault Unit}

/-! ## What an append leaves -/

def Reads (t : Tree) (dir : Bytes) (rs : List HistoryRecord) : Prop :=
  (t.run (records dir)).1 = .ok rs

/-- The records and a new one where a rotation stopped behind the new archive: its
records are still in the active file, and old archives may be gone. -/
def Doubles (rs : List HistoryRecord) (r : HistoryRecord) (now : List HistoryRecord) : Prop :=
  ∃ lost old twice rest, rs = lost ++ old ++ twice ++ rest ∧
    now = old ++ twice ++ twice ++ rest ++ [r]

/-- What an append leaves of the records `rs`, by its answer. Until the state directory
is there, the records are those `before`. -/
inductive Leaves (t : Tree) (dir : Bytes) (before rs : List HistoryRecord) (r : HistoryRecord) :
    Except Fault Unit → Prop
  | done {now : List HistoryRecord} (h : Reads t dir now) (last : now <:+ rs ++ [r])
    (new : now.getLast? = some r) : Leaves t dir before rs r (.ok ())
  | unmade (cause : Fault) (h : Reads t dir (if t.isDirectory dir then rs else before)) :
    Leaves t dir before rs r (.error (.user "Could not create state directory for history." cause))
  | unrecorded (cause : Fault) (h : Reads t dir rs ∨ Reads t dir (rs ++ [r])) :
    Leaves t dir before rs r (.error (.user "Could not record triage history." cause))
  /-- A part of the line stands at the end of the active file, which had another text. -/
  | cutLine (cause : Fault) {text part : Bytes} (hpart : part <+: r.toLine) (hsome : part ≠ [])
    (hproper : part ≠ r.toLine) (hread : t.readAt (path dir) = .ok (text ++ part))
    (h : Reads (t.perform (.write (path dir) text)).2 dir rs) :
    Leaves t dir before rs r (.error (.user "Could not record triage history." cause))
  | unread (cause : Fault) (h : Reads t dir (rs ++ [r])) :
    Leaves t dir before rs r (.error (.user "Could not read history for rotation." cause))
  | unarchived (cause : Fault) (h : Reads t dir (rs ++ [r])) :
    Leaves t dir before rs r (.error (.user "Could not write rotated history archive." cause))
  /-- There is a part of an archive whose records are in the active file still. -/
  | cutArchive (cause : Fault) {archive part packed : Bytes} {old moved rest : List HistoryRecord}
    (hread : t.readAt archive = .ok part) (hpart : part <+: packed)
    (hpacked : parseArchive packed = .ok moved) (hrecords : rs = old ++ moved ++ rest)
    (h : Reads (t.perform (.remove archive)).2 dir (rs ++ [r])) :
    Leaves t dir before rs r (.error (.user "Could not write rotated history archive." cause))
  | unpruned (cause : Fault) {now : List HistoryRecord} (h : Reads t dir now)
    (doubles : Doubles rs r now) :
    Leaves t dir before rs r (.error (.user "Could not prune history archives." cause))
  | unrotated (cause : Fault) {now : List HistoryRecord} (h : Reads t dir now)
    (doubles : now = rs ++ [r] ∨ Doubles rs r now) :
    Leaves t dir before rs r (.error (.user "Could not rotate history file." cause))

/-! ## Volumes -/

theorem recordsOf_take_drop (volumes : List Volume) (j : Nat) :
    recordsOf (volumes.take j) ++ recordsOf (volumes.drop j) = recordsOf volumes := by
  rw [← recordsOf_append, List.take_append_drop]

def appended (dir : Bytes) (volumes : List Volume) (moved : List HistoryRecord) : List Volume :=
  let number := nextNumber (volumes.map Prod.fst)
  volumes ++ [(⟨number, Path.join [dir, archiveName number]⟩, moved)]

theorem map_fst_appended (dir : Bytes) (volumes : List Volume) (moved : List HistoryRecord) :
    (appended dir volumes moved).map Prod.fst = volumes.map Prod.fst ++
      [⟨nextNumber (volumes.map Prod.fst),
        Path.join [dir, archiveName (nextNumber (volumes.map Prod.fst))]⟩] :=
  List.map_append

theorem length_appended (dir : Bytes) (volumes : List Volume) (moved : List HistoryRecord) :
    (appended dir volumes moved).length = volumes.length + 1 :=
  List.length_append

theorem recordsOf_drop_appended (dir : Bytes) (moved : List HistoryRecord) {j : Nat}
    (hj : j ≤ volumes.length) :
    recordsOf ((appended dir volumes moved).drop j) = recordsOf (volumes.drop j) ++ moved := by
  rw [appended, List.drop_append_of_le_length hj, recordsOf_append]
  simp [recordsOf]

/-- Archives whose order is sure also when there is one more. -/
def Roomy (found : List Archive) : Prop :=
  found.length < Quicksort.maxInsertion ∨ (found.map (·.number)).Nodup

theorem Roomy.orderly {found : List Archive} (h : Roomy found) : Orderly found :=
  h.imp_left Nat.le_of_lt

/-- Splitting lines splits their records. -/
theorem parsed?_split {recent : List HistoryRecord} (h : parsed? lines = some recent) (j : Nat) :
    ∃ moved rest, parsed? (lines.take j) = some moved ∧ parsed? (lines.drop j) = some rest ∧
      recent = moved ++ rest := by
  rw [← List.take_append_drop j lines] at h
  exact parsed?_append_eq_some.mp h

theorem parsed?_of_split {j : Nat} {moved rest : List HistoryRecord}
    (hmoved : parsed? (lines.take j) = some moved) (hrest : parsed? (lines.drop j) = some rest) :
    parsed? lines = some (moved ++ rest) := by
  rw [← List.take_append_drop j lines]
  exact parsed?_append_eq_some.mpr ⟨moved, rest, hmoved, hrest, rfl⟩

/-! ## Steps -/

/-- A file is written under a name, or it cannot be and nothing changes. -/
theorem perform_write (h : t.Folder dir place c) (hname : IsName name) (data : Bytes) :
    (Accepts dir c name ∧ ∃ id mode t',
        t.perform (.write (Path.join [dir, name]) data) = (.ok (), t') ∧
          t'.Folder dir place (Function.update c name (some (.file id data mode)))) ∨
      ∃ fault, t.perform (.write (Path.join [dir, name]) data) = (.error fault, t) := by
  by_cases haccepts : Accepts dir c name
  · obtain ⟨id, mode, t', hwrite, h'⟩ := h.editAt hname haccepts 0o644 fun _ => data
    exact .inl ⟨haccepts, id, mode, t', by rw [Tree.perform, hwrite]; rfl, h'⟩
  · obtain ⟨fault, hwrite⟩ := h.editAt_of_not_accepts hname haccepts 0o644 fun _ => data
    exact .inr ⟨fault, by rw [Tree.perform, hwrite]; rfl⟩

namespace Shelf

theorem reads (h : Shelf t dir place c volumes lines) (horder : Orderly (volumes.map Prod.fst))
    {recent : List HistoryRecord} (hparsed : parsed? lines = some recent) :
    Reads t dir (recordsOf volumes ++ recent) :=
  congrArg Prod.fst (h.run_records horder hparsed)

theorem yields_archives (h : Shelf t dir place c volumes lines)
    (horder : Orderly (volumes.map Prod.fst)) {found? : Except ListFault (List Archive)}
    (hrun : t.Yields (archives dir) found? t') :
    t' = t ∧ (found? = .ok (volumes.map Prod.fst) ∨ ∃ fault, found? = .error (.file fault)) := by
  have hlist : t.perform (.list dir) = (.ok (t.entries place), t) :=
    congrArg (·, t) h.folder.listAt
  obtain ⟨listed, t₁, hlisted, hrest⟩ := Tree.yields_bind.mp hrun
  rcases (Tree.yields_perform.mp hlisted).cases trivial hlist with ⟨rfl, rfl⟩ | ⟨hfault, rfl⟩
  · simp only [h.archivesAmong_entries horder] at hrest
    obtain ⟨rfl, rfl⟩ := hrest
    exact ⟨rfl, .inl rfl⟩
  · cases listed with
    | ok => exact hfault.elim
    | error fault =>
      obtain ⟨rfl, rfl⟩ := hrest
      exact ⟨rfl, .inr ⟨fault, rfl⟩⟩

/-- Pruning removes archives from the front until there is a fault. -/
theorem yields_prune (h : Shelf t dir place c volumes lines) {k : Nat} (hk : k ≤ volumes.length)
    (hrun : t.Yields (prune k (volumes.map Prod.fst)) answer t') :
    answer = .ok () ∧ (∃ c', Shelf t' dir place c' (volumes.drop k) lines) ∨
      ∃ cause, answer = .error (.user "Could not prune history archives." cause) ∧
        ∃ j < k, ∃ c', Shelf t' dir place c' (volumes.drop j) lines := by
  induction k generalizing t c volumes with
  | zero =>
    obtain ⟨rfl, rfl⟩ := hrun
    exact .inl ⟨rfl, c, h⟩
  | succ k ih =>
    cases volumes with
    | nil => cases hk
    | cons v volumes =>
      obtain ⟨t₁, c₁, hremove, h₁, -, -⟩ := h.remove
      have hremove : t.perform (.remove v.1.path) = (.ok (), t₁) := hremove
      rcases Tree.yields_orTell_bind.mp hrun with ⟨a, t₂, hfirst, hrest⟩ | ⟨fault, hfirst, rfl⟩
      · rcases (Tree.yields_perform.mp hfirst).cases trivial hremove with ⟨-, rfl⟩ | ⟨hfault, -⟩
        · rcases ih h₁ (Nat.le_of_succ_le_succ hk) hrest with
            hdone | ⟨cause, hcause, j, hj, c', h'⟩
          · exact .inl hdone
          · exact .inr ⟨cause, hcause, j + 1, Nat.succ_lt_succ hj, c', h'⟩
        · exact hfault.elim
      · rcases (Tree.yields_perform.mp hfirst).cases trivial hremove with ⟨⟨⟩, -⟩ | ⟨-, rfl⟩
        exact .inr ⟨_, rfl, 0, Nat.zero_lt_succ k, c, h⟩

/-- A temporary file makes no difference, whatever is in it. -/
theorem exists_writeTemporaryAt (h : Shelf t dir place c volumes lines) (part : Bytes) :
    ∃ c', Shelf (t.writeTemporaryAt (Path.directory (path dir)) "triage-history." part).2
      dir place c' volumes lines := by
  obtain ⟨n, -, ⟨fault, hwrite, -⟩ | ⟨id, mode, t₁, hwrite, -, h₁⟩⟩ := h.writeTemporaryAt part
  · rw [hwrite]
    exact ⟨c, h⟩
  · rw [hwrite]
    exact ⟨_, h₁⟩

theorem exists_removeTemporary (h : Shelf t dir place c volumes lines) {n : Nat}
    (hroom : HasRoom dir (temporaryName n)) {id : FileId} {data : Bytes} {mode : Nat}
    (hfile : c (temporaryName n) = some (.file id data mode)) {a : Except FileFault Unit}
    (hrun : t.Answers (.remove (Path.join [dir, temporaryName n])) a t') :
    ∃ c', Shelf t' dir place c' volumes lines := by
  obtain ⟨t₁, hremove, h₁⟩ := h.folder.removeAt (isName_temporaryName n) hroom hfile
  have hremove : t.perform (.remove (Path.join [dir, temporaryName n])) = (.ok (), t₁) := hremove
  rcases hrun.cases trivial hremove with ⟨-, rfl⟩ | ⟨-, rfl⟩
  · exact ⟨_, h.update_foreign (isForeign_temporaryName n) (temporaryName_ne n) h₁⟩
  · exact ⟨c, h⟩

/-- Whatever becomes of a temporary file, the active file is replaced or as it was. -/
theorem yields_replaceFile (h : Shelf t dir place c volumes lines) {data : Bytes}
    (hlines : lines? data = some lines') {a : Except FileFault Unit}
    (hrun : t.Yields (replaceFile (path dir) data) a t') :
    a = .ok () ∧ (∃ c', Shelf t' dir place c' volumes lines') ∨
      ∃ fault, a = .error fault ∧ ∃ c', Shelf t' dir place c' volumes lines := by
  obtain ⟨written, t₁, hwritten, hrest⟩ := Tree.yields_bind.mp hrun
  rcases Tree.yields_perform.mp hwritten with hwritten | ⟨hfault, hleft⟩
  · rw [Tree.perform] at hwritten
    obtain ⟨n, -, ⟨fault, hwrite, -⟩ | ⟨id, mode, t₂, hwrite, hroom, h₁⟩⟩ :=
      h.writeTemporaryAt data <;> rw [hwrite] at hwritten <;>
      obtain ⟨rfl, rfl⟩ := Prod.mk.inj hwritten
    · obtain ⟨rfl, rfl⟩ := hrest
      exact .inr ⟨fault, rfl, c, h⟩
    have hfile := Function.update_self (temporaryName n) (some (Node.file id data mode)) c
    obtain ⟨t₂, c₂, hrename, h₂, -, -, -⟩ := h₁.renameTemporary hroom hfile hlines
    have hrename : t₁.perform (.rename (Path.join [dir, temporaryName n]) (path dir)) =
      (.ok (), t₂) := hrename
    obtain ⟨renamed, t₃, hrenamed, hrest⟩ := Tree.yields_bind.mp hrest
    rcases (Tree.yields_perform.mp hrenamed).cases trivial hrename with ⟨rfl, rfl⟩ | ⟨hfault, rfl⟩
    · obtain ⟨rfl, rfl⟩ := hrest
      exact .inl ⟨rfl, c₂, h₂⟩
    · cases renamed with
      | ok => exact hfault.elim
      | error fault =>
        obtain ⟨removed, t₄, hremoved, rfl, rfl⟩ := Tree.yields_bind.mp hrest
        exact .inr ⟨fault, rfl,
          h₁.exists_removeTemporary hroom hfile (Tree.yields_perform.mp hremoved)⟩
  · cases written with
    | ok => exact hfault.elim
    | error fault =>
      obtain ⟨rfl, rfl⟩ := hrest
      refine .inr ⟨fault, rfl, ?_⟩
      rcases hleft with rfl | ⟨_, ⟨⟩, rfl⟩
      · exact ⟨c, h⟩
      · exact h.exists_writeTemporaryAt _

/-- Removing a part of a new archive leaves the folder as it was. -/
theorem remove_part (h : Shelf t dir place c volumes lines) (hname : IsName name)
    (hroom : HasRoom dir name) (hnone : c name = none) {id : FileId} {part : Bytes} {mode : Nat}
    (h' : t'.Folder dir place (Function.update c name (some (.file id part mode)))) :
    t'.readAt (Path.join [dir, name]) = .ok part ∧
      Shelf (t'.perform (.remove (Path.join [dir, name]))).2 dir place c volumes lines := by
  have hfile := Function.update_self name (some (Node.file id part mode)) c
  obtain ⟨t₁, hremove, h₁⟩ := h'.removeAt hname hroom hfile
  rw [Function.update_idem, ← hnone, Function.update_eq_self] at h₁
  refine ⟨by rw [h'.readAt hname hroom, hfile], ?_⟩
  rw [Tree.perform, hremove]
  exact h.change_foreign h₁ (fun _ _ => rfl) h.active

/-- The archive after the others is written, or nothing of it, or a part that can be
removed. -/
theorem answers_writeArchive (h : Shelf t dir place c volumes lines)
    (hnumbers : ∀ v ∈ volumes, v.1.number < Int64.maxValue) {text : Bytes} {ls : List Bytes}
    {moved : List HistoryRecord} (hlines : lines? text = some ls)
    (hparsed : parsed? ls = some moved) {target : Bytes}
    (htarget : Path.join [dir, archiveName (nextNumber (volumes.map Prod.fst))] = target)
    {a : Except FileFault Unit} (hrun : t.Answers (.write target (Gzip.pack text)) a t') :
    a = .ok () ∧ (∃ c', Shelf t' dir place c' (appended dir volumes moved) lines) ∨
      ∃ fault, a = .error fault ∧
        ((∃ c', Shelf t' dir place c' volumes lines) ∨
          ∃ part c', part <+: Gzip.pack text ∧ t'.readAt target = .ok part ∧
            Shelf (t'.perform (.remove target)).2 dir place c' volumes lines) := by
  subst htarget
  obtain ⟨hn, habove⟩ := h.lt_nextNumber hnumbers
  have hname := isName_of_archive (entry_of_archiveName hn)
  rcases hrun with hrun | ⟨hfault, hleft⟩
  · obtain ⟨haccepts, id, mode, t₁, hwrite, h₁⟩ | ⟨fault, hwrite⟩ :=
      perform_write h.folder hname (Gzip.pack text) <;> rw [hwrite] at hrun <;>
      obtain ⟨rfl, rfl⟩ := Prod.mk.inj hrun
    · have hnone := h.archiveName_eq_none hn habove haccepts.2
      exact .inl ⟨rfl, _, h.add hn habove hnone haccepts.1 h₁ hlines hparsed⟩
    · exact .inr ⟨fault, rfl, .inl ⟨c, h⟩⟩
  cases a with
  | ok => exact hfault.elim
  | error fault =>
    refine .inr ⟨fault, rfl, ?_⟩
    rcases hleft with rfl | ⟨_, ⟨⟩, rfl⟩
    · exact .inl ⟨c, h⟩
    next part hpart =>
    obtain ⟨haccepts, id, mode, t₁, hwrite, h₁⟩ | ⟨fault, hwrite⟩ :=
      perform_write h.folder hname part <;> rw [hwrite]
    · have hnone := h.archiveName_eq_none hn habove haccepts.2
      obtain ⟨hread, hremoved⟩ := h.remove_part hname haccepts.1 hnone h₁
      exact .inr ⟨part, c, hpart, hread, hremoved⟩
    · exact .inl ⟨c, h⟩

/-- A part of a line at the end of the active file is cut off when the file is written
anew. -/
theorem cut_part (h : Shelf t dir place c volumes lines) {id : FileId} {part : Bytes} {mode : Nat}
    (h' : t'.Folder dir place (Function.update c fileName
      (some (.file id (contentOf (c fileName) ++ part) mode)))) :
    t'.readAt (path dir) = .ok (contentOf (c fileName) ++ part) ∧
      ∃ c', Shelf (t'.perform (.write (path dir) (contentOf (c fileName)))).2 dir place c'
        volumes lines := by
  have hfile := Function.update_self fileName
    (some (Node.file id (contentOf (c fileName) ++ part) mode)) c
  have hactive : ¬ Tree.IsDirectoryIn (Function.update c fileName
      (some (.file id (contentOf (c fileName) ++ part) mode))) fileName := by
    rintro ⟨m, hm⟩
    rw [hfile] at hm
    cases hm
  obtain ⟨id', mode', t₁, hwrite, h₁⟩ := h'.editAt isName_fileName ⟨h.room, hactive⟩ 0o644
    fun _ => contentOf (c fileName)
  rw [Function.update_idem] at h₁
  have hcut : t'.perform (.write (path dir) (contentOf (c fileName))) = (.ok (), t₁) := by
    rw [Tree.perform, path, hwrite]
    rfl
  exact ⟨by rw [path, h'.readAt isName_fileName h.room, hfile], _,
    by rw [hcut]; exact h.update_active h₁ h.lines?_content⟩

/-- The line of a record is added, or nothing of it, or a part that can be cut off. -/
theorem answers_addLine (h : Shelf t dir place c volumes lines)
    (htakes : TakesLine (contentOf (c fileName)) r.toLine) (hr : r.IsStorable)
    {recent : List HistoryRecord} (hparsed : parsed? lines = some recent)
    {a : Except FileFault Unit}
    (hrun : t.Answers (.append (path dir) 0o644 (recordLine r)) a t') :
    a = .ok () ∧ (∃ c' init last, Shelf t' dir place c' volumes (init ++ [last]) ∧
        parsed? init = some recent ∧ parsed? [last] = some [r]) ∨
      ∃ fault, a = .error fault ∧
        ((∃ c' lines', Shelf t' dir place c' volumes lines' ∧
            (parsed? lines' = some recent ∨ parsed? lines' = some (recent ++ [r]))) ∨
          ∃ text part c', part <+: r.toLine ∧ part ≠ [] ∧ part ≠ r.toLine ∧
            t'.readAt (path dir) = .ok (text ++ part) ∧
            Shelf (t'.perform (.write (path dir) text)).2 dir place c' volumes lines) := by
  obtain ⟨init, last, hline, hbody, hinit, hlast⟩ :=
    lines?_takesLine htakes hr h.lines?_content hparsed
  have hboth : parsed? (init ++ [last]) = some (recent ++ [r]) :=
    parsed?_append_eq_some.mpr ⟨recent, [r], hinit, hlast, rfl⟩
  have hadd : ∀ part, ∃ id mode t', t.perform (.append (path dir) 0o644 part) = (.ok (), t') ∧
      t'.Folder dir place (Function.update c fileName
        (some (.file id (contentOf (c fileName) ++ part) mode))) := by
    intro part
    obtain ⟨id, mode, t', hedit, h'⟩ := h.folder.editAt isName_fileName
      ⟨h.room, h.not_isDirectoryIn⟩ 0o644 (· ++ part)
    exact ⟨id, mode, t', by rw [Tree.perform, path, hedit]; rfl, h'⟩
  rcases hrun with hrun | ⟨hfault, hleft⟩
  · obtain ⟨id, mode, t₁, hperform, h₁⟩ := hadd (recordLine r)
    rw [hperform] at hrun
    obtain ⟨rfl, rfl⟩ := Prod.mk.inj hrun
    exact .inl ⟨rfl, _, init, last, h.update_active h₁ hline, hinit, hlast⟩
  cases a with
  | ok => exact hfault.elim
  | error fault =>
    refine .inr ⟨fault, rfl, ?_⟩
    rcases hleft with rfl | ⟨_, ⟨⟩, rfl⟩
    · exact .inl ⟨c, lines, h, .inl hparsed⟩
    next part hpart =>
    obtain ⟨id, mode, t₁, hperform, h₁⟩ := hadd part
    rw [hperform]
    rcases List.prefix_concat_iff.mp hpart with rfl | hpart
    · exact .inl ⟨_, _, h.update_active h₁ hline, .inr hboth⟩
    by_cases hwhole : part = r.toLine
    · rw [hwhole] at h₁
      exact .inl ⟨_, _, h.update_active h₁ hbody, .inr hboth⟩
    by_cases hempty : part = []
    · rw [hempty, List.append_nil] at h₁
      exact .inl ⟨_, _, h.update_active h₁ h.lines?_content, .inl hparsed⟩
    obtain ⟨hread, c', hcut⟩ := h.cut_part h₁
    exact .inr ⟨contentOf (c fileName), part, c', hpart, hempty, hwhole, hread, hcut⟩

/-- The order of the volumes is sure when there is a new one at the end. -/
theorem orderly_appended (h : Shelf t dir place c volumes lines)
    (hroomy : Roomy (volumes.map Prod.fst))
    (hnumbers : ∀ v ∈ volumes, v.1.number < Int64.maxValue) (moved : List HistoryRecord) (j : Nat) :
    Orderly (((appended dir volumes moved).drop j).map Prod.fst) := by
  have hall : Orderly ((appended dir volumes moved).map Prod.fst) := by
    rcases hroomy with hfew | hnodup
    · refine .inl ?_
      rw [List.length_map, length_appended]
      rwa [List.length_map] at hfew
    · refine .inr ?_
      rw [map_fst_appended, List.map_append, List.nodup_append]
      refine ⟨hnodup, List.nodup_singleton _, ?_⟩
      intro n hn n' hn'
      obtain ⟨a, ha, rfl⟩ := List.mem_map.mp hn
      obtain ⟨v, hv, rfl⟩ := List.mem_map.mp ha
      rw [List.map_singleton, List.mem_singleton] at hn'
      rw [hn']
      exact Int64.ne_of_lt ((h.lt_nextNumber hnumbers).2 v hv)
  exact hall.of_sublist ((List.drop_sublist j _).map _)

/-- A rotation that stops behind the new archive. -/
theorem reads_doubles {t₀ : Tree} {c₀ : Bytes → Option Node}
    (h₀ : Shelf t₀ dir place c₀ volumes lines) (hroomy : Roomy (volumes.map Prod.fst))
    (hnumbers : ∀ v ∈ volumes, v.1.number < Int64.maxValue) {moved rest : List HistoryRecord}
    (hparsed : parsed? lines = some (moved ++ (rest ++ [r]))) {j : Nat} (hj : j ≤ volumes.length)
    (h : Shelf t dir place c ((appended dir volumes moved).drop j) lines) :
    ∃ now, Reads t dir now ∧ Doubles (recordsOf volumes ++ moved ++ rest) r now := by
  refine ⟨_, h.reads (h₀.orderly_appended hroomy hnumbers moved j) hparsed,
    recordsOf (volumes.take j), recordsOf (volumes.drop j), moved, rest, ?_, ?_⟩
  · rw [recordsOf_take_drop]
  · rw [recordsOf_drop_appended dir moved hj]
    simp

theorem leaves_of_rotated {t₀ : Tree} {c₀ : Bytes → Option Node}
    (h₀ : Shelf t₀ dir place c₀ volumes lines') (hroomy : Roomy (volumes.map Prod.fst))
    (hnumbers : ∀ v ∈ volumes, v.1.number < Int64.maxValue) {moved rest : List HistoryRecord}
    (hparsed : parsed? lines = some (rest ++ [r])) {j : Nat} (hj : j ≤ volumes.length)
    (h : Shelf t dir place c ((appended dir volumes moved).drop j) lines) :
    Leaves t dir before (recordsOf volumes ++ moved ++ rest) r (.ok ()) := by
  have hreads := h.reads (h₀.orderly_appended hroomy hnumbers moved j) hparsed
  rw [recordsOf_drop_appended dir moved hj] at hreads
  refine .done hreads ⟨recordsOf (volumes.take j), ?_⟩ (by simp)
  rw [← recordsOf_take_drop volumes j]
  simp

/-- What a rotation leaves of the records, the last of which is new. -/
theorem leaves_of_rotateTo (h : Shelf t dir place c volumes lines)
    (hroomy : Roomy (volumes.map Prod.fst))
    (hnumbers : ∀ v ∈ volumes, v.1.number < Int64.maxValue) {keep : Nat}
    {moved rest : List HistoryRecord}
    (hmoved : parsed? (lines.take (lines.length - keep)) = some moved)
    (hkept : parsed? (lines.drop (lines.length - keep)) = some (rest ++ [r])) {target : Bytes}
    (htarget : Path.join [dir, archiveName (nextNumber (volumes.map Prod.fst))] = target)
    (hrun : t.Yields (rotateTo (path dir) target lines keep (volumes.map Prod.fst)) answer t') :
    Leaves t' dir before (recordsOf volumes ++ moved ++ rest) r answer := by
  have htaken : ∀ l ∈ lines.take (lines.length - keep), IsLine l :=
    fun l hl => h.isLine l (List.mem_of_mem_take hl)
  have hleft : ∀ l ∈ lines.drop (lines.length - keep), IsLine l :=
    fun l hl => h.isLine l (List.mem_of_mem_drop hl)
  have hlines := lines?_flatten htaken
  have hpacked := (parsed?_reread htaken).trans hmoved
  have hparsed := parsed?_of_split hmoved hkept
  have hexcess : volumes.length + 1 - maxArchives ≤ volumes.length := by
    rw [maxArchives]
    omega
  have hsame : recordsOf volumes ++ (moved ++ (rest ++ [r])) =
      recordsOf volumes ++ moved ++ rest ++ [r] := by simp
  rcases Tree.yields_orTell_bind.mp hrun with ⟨_, t₁, hfirst, hrest⟩ | ⟨fault, hfirst, rfl⟩ <;>
    have hwrite := h.answers_writeArchive hnumbers hlines hpacked htarget
      (Tree.yields_perform.mp hfirst)
  · obtain ⟨-, c₁, h₁⟩ | ⟨_, ⟨⟩, -⟩ := hwrite
    have hlength : volumes.length + 1 - maxArchives ≤ (appended dir volumes moved).length := by
      rw [length_appended]
      exact Nat.sub_le _ _
    rw [← htarget, ← map_fst_appended dir volumes moved, List.length_map] at hrest
    rcases Tree.yields_task_bind.mp hrest with ⟨_, t₂, hprune, hreplace⟩ | ⟨fault, hprune, rfl⟩
    · obtain ⟨-, c₂, h₂⟩ | ⟨_, ⟨⟩, -⟩ := h₁.yields_prune hlength hprune
      rcases Tree.yields_orTell.mp hreplace with ⟨_, hfile, rfl⟩ | ⟨fault, hfile, rfl⟩
      · obtain ⟨-, c', h'⟩ | ⟨_, ⟨⟩, -⟩ := h₂.yields_replaceFile (lines?_flatten hleft) hfile
        exact h.leaves_of_rotated hroomy hnumbers ((parsed?_reread hleft).trans hkept) hexcess h'
      · obtain ⟨⟨⟩, -⟩ | ⟨_, -, c', h'⟩ := h₂.yields_replaceFile (lines?_flatten hleft) hfile
        obtain ⟨now, hreads, hdoubles⟩ := reads_doubles h hroomy hnumbers hparsed hexcess h'
        exact .unrotated _ hreads (.inr hdoubles)
    · obtain ⟨⟨⟩, -⟩ | ⟨_, hanswer, j, hj, c', h'⟩ := h₁.yields_prune hlength hprune
      cases hanswer
      obtain ⟨now, hreads, hdoubles⟩ :=
        reads_doubles h hroomy hnumbers hparsed (Nat.le_trans (Nat.le_of_lt hj) hexcess) h'
      exact .unpruned _ hreads hdoubles
  · obtain ⟨⟨⟩, -⟩ | ⟨_, -, ⟨c', h'⟩ | ⟨part, c', hpart, hread, h'⟩⟩ := hwrite
    · exact .unarchived _ (hsame ▸ h'.reads hroomy.orderly hparsed)
    · exact .cutArchive _ hread hpart (parseArchive_pack hlines hpacked) rfl
        (hsame ▸ h'.reads hroomy.orderly hparsed)

theorem leaves_of_rotate (h : Shelf t dir place c volumes lines)
    (hroomy : Roomy (volumes.map Prod.fst))
    (hnumbers : ∀ v ∈ volumes, v.1.number < Int64.maxValue) {keep : Nat}
    {moved rest : List HistoryRecord}
    (hmoved : parsed? (lines.take (lines.length - keep)) = some moved)
    (hkept : parsed? (lines.drop (lines.length - keep)) = some (rest ++ [r]))
    (hrun : t.Yields (rotate (path dir) lines keep) answer t') :
    Leaves t' dir before (recordsOf volumes ++ moved ++ rest) r answer := by
  have hdirectory : Path.directory (path dir) = Path.clean dir :=
    Path.directory_join h.folder.opens.ne_nil isName_fileName
  obtain ⟨found?, t₁, hfound, hrest⟩ := Tree.yields_task_lift hrun
  rw [hdirectory] at hfound hrest
  obtain ⟨rfl, rfl | ⟨fault, rfl⟩⟩ := h.clean.yields_archives hroomy.orderly hfound
  · rcases Tree.yields_task_bind.mp hrest with ⟨found, t₂, ⟨hpure, rfl⟩, hrest⟩ | ⟨_, ⟨⟨⟩, -⟩, -⟩
    cases hpure
    have hname := isName_of_archive (entry_of_archiveName (h.lt_nextNumber hnumbers).1)
    exact h.leaves_of_rotateTo hroomy hnumbers hmoved hkept
      (Path.join_clean h.folder.opens.ne_nil hname).symm hrest
  · rcases Tree.yields_task_bind.mp hrest with ⟨_, _, ⟨⟨⟩, -⟩, -⟩ | ⟨_, ⟨hthrow, rfl⟩, rfl⟩
    cases hthrow
    have hreads := h.reads hroomy.orderly (parsed?_of_split hmoved hkept)
    exact .unrotated _ hreads (.inl (by simp))

theorem exists_text (h : Shelf t dir place c volumes lines) (hne : lines ≠ []) :
    ∃ text, t.readAt (path dir) = .ok text ∧ lines? text = some lines := by
  rcases h.active with ⟨-, rfl⟩ | ⟨id, text, mode, hfile, hlines⟩
  · exact absurd rfl hne
  · refine ⟨text, ?_, hlines⟩
    rw [path, h.folder.readAt isName_fileName h.room, hfile]

theorem leaves_of_rotateIfNeeded {init : List Bytes} {last : Bytes}
    (h : Shelf t dir place c volumes (init ++ [last])) (hroomy : Roomy (volumes.map Prod.fst))
    (hnumbers : ∀ v ∈ volumes, v.1.number < Int64.maxValue) {recent : List HistoryRecord}
    (hinit : parsed? init = some recent) (hlast : parsed? [last] = some [r]) {m : Int64}
    (hm : 0 < m) (hrun : t.Yields (rotateIfNeeded (path dir) m) answer t') :
    Leaves t' dir before (recordsOf volumes ++ recent) r answer := by
  have hparsed : parsed? (init ++ [last]) = some (recent ++ [r]) :=
    parsed?_append_eq_some.mpr ⟨recent, [r], hinit, hlast, rfl⟩
  have hreads := h.reads hroomy.orderly hparsed
  rw [← List.append_assoc] at hreads
  obtain ⟨text, hread, hlines⟩ := h.exists_text (by simp)
  have hread : t.perform (.read (path dir)) = (.ok text, t) := congrArg (·, t) hread
  rcases Tree.yields_orTell_bind.mp hrun with ⟨text', t₁, hfirst, hrest⟩ | ⟨fault, hfirst, rfl⟩ <;>
    have hfirst := (Tree.yields_perform.mp hfirst).cases trivial hread
  · obtain ⟨htext, rfl⟩ | ⟨hfault, -⟩ := hfirst
    · cases htext
      simp only [hlines] at hrest
      split at hrest
      · obtain ⟨rfl, rfl⟩ := hrest
        exact .done hreads (List.suffix_refl _) (by simp)
      · have hkeep := toNatClampNeg_pos hm
        obtain ⟨moved, rest, hmoved, hrest', rfl⟩ :=
          parsed?_split hinit ((init ++ [last]).length - m.toNatClampNeg)
        rw [← List.append_assoc]
        have hshort : (init ++ [last]).length - m.toNatClampNeg ≤ init.length := by
          rw [List.length_append, List.length_singleton]
          omega
        refine h.leaves_of_rotate hroomy hnumbers ?_ ?_ hrest
        · rwa [List.take_append_of_le_length hshort]
        · rw [List.drop_append_of_le_length hshort]
          exact parsed?_append_eq_some.mpr ⟨rest, [r], hrest', hlast, rfl⟩
    · exact hfault.elim
  · obtain ⟨⟨⟩, -⟩ | ⟨-, rfl⟩ := hfirst
    exact .unread _ hreads

/-- What is left by an append to a directory that is there. -/
theorem leaves (h : Shelf t dir place c volumes lines)
    (htakes : TakesLine (contentOf (c fileName)) r.toLine) (hroomy : Roomy (volumes.map Prod.fst))
    (hnumbers : ∀ v ∈ volumes, v.1.number < Int64.maxValue) {recent : List HistoryRecord}
    (hparsed : parsed? lines = some recent) (hr : r.IsStorable) {m : Int64}
    (hrun : t.Yields (do
      .orTell "Could not record triage history."
        (.perform (.append (path dir) 0o644 (recordLine r)))
      if 0 < m then rotateIfNeeded (path dir) m else pure () : FileTask Unit) answer t') :
    Leaves t' dir before (recordsOf volumes ++ recent) r answer := by
  rcases Tree.yields_orTell_bind.mp hrun with ⟨_, t₁, hadd, hrest⟩ | ⟨fault, hadd, rfl⟩ <;>
    have hadd := h.answers_addLine htakes hr hparsed (Tree.yields_perform.mp hadd)
  · obtain ⟨-, c₁, init, last, h₁, hinit, hlast⟩ | ⟨_, ⟨⟩, -⟩ := hadd
    by_cases hm : 0 < m
    · rw [if_pos hm] at hrest
      exact h₁.leaves_of_rotateIfNeeded hroomy hnumbers hinit hlast hm hrest
    · rw [if_neg hm] at hrest
      obtain ⟨rfl, rfl⟩ := hrest
      have hreads := h₁.reads hroomy.orderly
        (parsed?_append_eq_some.mpr ⟨recent, [r], hinit, hlast, rfl⟩)
      rw [← List.append_assoc] at hreads
      exact .done hreads (List.suffix_refl _) (by simp)
  · obtain ⟨⟨⟩, -⟩ | ⟨_, -, ⟨c', lines', h', hold | hnew⟩ |
      ⟨text, part, c', hpart, hsome, hproper, hread, h'⟩⟩ := hadd
    · exact .unrecorded _ (.inl (h'.reads hroomy.orderly hold))
    · refine .unrecorded _ (.inr ?_)
      rw [List.append_assoc]
      exact h'.reads hroomy.orderly hnew
    · exact .cutLine _ hpart hsome hproper hread (h'.reads hroomy.orderly hparsed)

end Shelf

end History

end ScanTriage
