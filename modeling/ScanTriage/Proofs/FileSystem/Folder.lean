import Mathlib.Data.List.Nodup
import Mathlib.Logic.Function.Basic
import ScanTriage.Proofs.FileSystem.Resolve

/-!
# Folders

What a command does inside a directory. `Folder` says of a tree that a path
leads to a directory and which node each name in it stands for; every command
on a name is a change of that function at one name, and the directories stay.
-/

namespace ScanTriage

namespace Tree

open ScanTriage.Path (IsName IsClean render parts)

variable {t t' : Tree} {dir name : Bytes} {place q : NodePath} {node : Node}

/-! ## Nodes after a change -/

theorem lookup_cons_of_ne {p : NodePath} (h : q ≠ p) (nodes : List (NodePath × Node)) :
    ((p, node) :: nodes).lookup q = nodes.lookup q := by
  rw [List.lookup_cons, beq_false_of_ne h]

/-- Looking up after nodes were dropped and their paths changed. -/
theorem lookup_map_filter (keep : NodePath → Bool) (f : NodePath → NodePath) {p : NodePath}
    (h : ∀ path, keep path = true ∧ f path = q ↔ path = p) (nodes : List (NodePath × Node)) :
    ((nodes.filter fun x => keep x.1).map fun x => (f x.1, x.2)).lookup q = nodes.lookup p := by
  induction nodes with
  | nil => rfl
  | cons x nodes ih =>
    obtain ⟨path, node⟩ := x
    by_cases hkeep : keep path = true
    · rw [List.filter_cons, if_pos hkeep, List.map_cons]
      by_cases hpath : path = p
      · rw [((h path).mpr hpath).2, hpath, List.lookup_cons_self, List.lookup_cons_self]
      · have hq : q ≠ f path := fun hq => hpath ((h path).mp ⟨hkeep, hq.symm⟩)
        rw [lookup_cons_of_ne hq, lookup_cons_of_ne (Ne.symm hpath), ih]
    · have hp : p ≠ path := fun hp => hkeep ((h path).mpr hp.symm).1
      rw [List.filter_cons, if_neg hkeep, ih, lookup_cons_of_ne hp]

/-- No node is found where none is put. -/
theorem lookup_map_filter_eq_none (keep : NodePath → Bool) (f : NodePath → NodePath)
    (h : ∀ path, keep path = true → f path ≠ q) (nodes : List (NodePath × Node)) :
    ((nodes.filter fun x => keep x.1).map fun x => (f x.1, x.2)).lookup q = none := by
  rw [List.lookup_eq_none_iff]
  intro x hx
  obtain ⟨y, hy, rfl⟩ := List.mem_map.mp hx
  simpa using Ne.symm (h y.1 (List.mem_filter.mp hy).2)

theorem find?_of_ne_nil (hq : q ≠ []) : t.find? q = t.nodes.lookup q := by
  rw [find?, if_neg (by simpa using hq)]

theorem lookup_filter_ne {p : NodePath} (nodes : List (NodePath × Node)) :
    (nodes.filter (·.1 != p)).lookup q = if q = p then none else nodes.lookup q := by
  have hmap : (nodes.filter (·.1 != p)) =
      (nodes.filter fun x => (· != p) x.1).map fun x => (id x.1, x.2) := by simp
  rw [hmap]
  split
  · next h =>
    exact lookup_map_filter_eq_none (· != p) id (fun path hpath hq => by simp_all) nodes
  · next h =>
    refine lookup_map_filter (· != p) id (fun path => ⟨fun h => h.2, ?_⟩) nodes
    rintro rfl
    exact ⟨by simpa using h, rfl⟩

theorem find?_erase {p : NodePath} (hq : q ≠ []) :
    (t.erase p).find? q = if q = p then none else t.find? q := by
  rw [find?_of_ne_nil hq, find?_of_ne_nil hq]
  exact lookup_filter_ne t.nodes

theorem find?_insert {p : NodePath} (hq : q ≠ []) :
    (t.insert p node).find? q = if q = p then some node else t.find? q := by
  rw [find?_of_ne_nil hq, find?_of_ne_nil hq]
  change ((p, node) :: t.nodes.filter (·.1 != p)).lookup q = _
  by_cases h : q = p
  · rw [h, List.lookup_cons_self, if_pos rfl]
  · rw [lookup_cons_of_ne h, lookup_filter_ne, if_neg h, if_neg h]

theorem find?_addFile {p : NodePath} {data : Bytes} {mode : Nat} (hq : q ≠ []) :
    (t.addFile p data mode).2.find? q =
      if q = p then some (.file t.serial data mode) else t.find? q :=
  find?_insert hq

def moved (source goal path : NodePath) : NodePath :=
  if source.isPrefixOf path then goal ++ path.drop source.length else path

theorem move_nodes (t : Tree) (source goal : NodePath) :
    (t.move source goal).nodes =
      (t.nodes.filter fun x => x.1 == source || x.1 != goal).map fun x =>
        (moved source goal x.1, x.2) :=
  rfl

section Move

variable {source goal : NodePath}

theorem moved_eq_iff (hsource : ¬ source <+: q) (hgoal : ¬ goal <+: q) (path : NodePath) :
    moved source goal path = q ↔ path = q := by
  unfold moved
  split
  · next h =>
    refine ⟨?_, ?_⟩
    · rintro rfl
      exact absurd (List.prefix_append ..) hgoal
    · rintro rfl
      exact absurd (List.isPrefixOf_iff_prefix.mp h) hsource
  · exact Iff.rfl

/-- What is neither the source nor the goal of a move, nor below one of them,
stays where it is. -/
theorem find?_move_of_apart (hsource : ¬ source <+: q) (hgoal : ¬ goal <+: q) :
    (t.move source goal).find? q = t.find? q := by
  by_cases hq : q = []
  · rw [hq]
    rfl
  rw [find?_of_ne_nil hq, find?_of_ne_nil hq, move_nodes]
  refine lookup_map_filter (fun path => path == source || path != goal) (moved source goal)
    (fun path => ?_) t.nodes
  rw [moved_eq_iff hsource hgoal]
  refine ⟨fun h => h.2, ?_⟩
  rintro rfl
  have hne : path ≠ goal := fun h => hgoal (h ▸ List.prefix_refl _)
  exact ⟨by simp [hne], rfl⟩

theorem find?_move_goal (hgoal : goal ≠ []) (hsource : source ≠ []) :
    (t.move source goal).find? goal = t.find? source := by
  rw [find?_of_ne_nil hgoal, find?_of_ne_nil hsource, move_nodes]
  refine lookup_map_filter (fun path => path == source || path != goal) (moved source goal)
    (fun path => ?_) t.nodes
  unfold moved
  split
  · next h =>
    obtain ⟨rest, rfl⟩ := List.isPrefixOf_iff_prefix.mp h
    simpa using fun h => .inl h
  · next h =>
    have hne : path ≠ source := fun h' => h (by simp [h'])
    simp [hne]

theorem find?_move_source (hsource : source ≠ []) (hapart : ¬ goal <+: source) :
    (t.move source goal).find? source = none := by
  rw [find?_of_ne_nil hsource, move_nodes]
  refine lookup_map_filter_eq_none (fun path => path == source || path != goal)
    (moved source goal) (fun path _ hpath => ?_) t.nodes
  unfold moved at hpath
  split at hpath
  · exact hapart (hpath ▸ List.prefix_append ..)
  · next h => exact h (by simp [hpath])

end Move

/-! ## Directories stay -/

theorem keeps_of_find? (hworking : t'.working = t.working) {p : NodePath}
    (hnot : ¬ t.IsDirectoryAt p) (h : ∀ q, q ≠ [] → q ≠ p → t'.find? q = t.find? q) :
    t.Keeps t' := by
  refine ⟨hworking, fun place hplace q hq => ?_⟩
  by_cases hnil : q = []
  · rw [hnil]
    exact ⟨_, rfl⟩
  · obtain ⟨mode, hmode⟩ := hplace q hq
    refine ⟨mode, ?_⟩
    rw [h q hnil fun hp => hnot (hp ▸ ⟨mode, hmode⟩), hmode]

theorem keeps_insert {p : NodePath} (hnot : ¬ t.IsDirectoryAt p) : t.Keeps (t.insert p node) :=
  keeps_of_find? rfl hnot fun q hq hne => by rw [find?_insert hq, if_neg hne]

theorem keeps_erase {p : NodePath} (hnot : ¬ t.IsDirectoryAt p) : t.Keeps (t.erase p) :=
  keeps_of_find? rfl hnot fun q hq hne => by rw [find?_erase hq, if_neg hne]

theorem keeps_addFile {p : NodePath} {data : Bytes} {mode : Nat} (hnot : ¬ t.IsDirectoryAt p) :
    t.Keeps (t.addFile p data mode).2 :=
  keeps_of_find? rfl hnot fun q hq hne => by rw [find?_addFile hq, if_neg hne]

theorem keeps_move {source goal : NodePath} (hsource : ¬ t.IsDirectoryAt source)
    (hgoal : ¬ t.IsDirectoryAt goal) : t.Keeps (t.move source goal) := by
  refine ⟨rfl, fun place hplace q hq => ?_⟩
  obtain ⟨mode, hmode⟩ := hplace q hq
  refine ⟨mode, ?_⟩
  rw [find?_move_of_apart (fun h => hsource (hplace source (h.trans hq)))
    (fun h => hgoal (hplace goal (h.trans hq))), hmode]

/-! ## Names -/

def nameIn? (place path : NodePath) : Option Bytes :=
  if path.dropLast == place && !path.isEmpty then some (path.getLastD []) else none

theorem nameIn?_eq_some {path : NodePath} :
    nameIn? place path = some name ↔ path = place ++ [name] := by
  rcases List.eq_nil_or_concat path with rfl | ⟨front, last, rfl⟩
  · simp [nameIn?]
  · simp [nameIn?]

@[simp]
theorem nameIn?_concat (place : NodePath) (name : Bytes) :
    nameIn? place (place ++ [name]) = some name := nameIn?_eq_some.mpr rfl

def names (t : Tree) (place : NodePath) : List Bytes :=
  t.nodes.filterMap fun x => nameIn? place x.1

theorem mem_names : name ∈ t.names place ↔ ∃ node, (place ++ [name], node) ∈ t.nodes := by
  simp only [names, List.mem_filterMap, nameIn?_eq_some, Prod.exists]
  exact ⟨fun ⟨_, node, hmem, hpath⟩ => ⟨node, hpath ▸ hmem⟩,
    fun ⟨node, hmem⟩ => ⟨_, node, hmem, rfl⟩⟩

theorem nodup_names_erase (h : (t.names place).Nodup) (p : NodePath) :
    ((t.erase p).names place).Nodup :=
  h.sublist (List.Sublist.filterMap _ List.filter_sublist)

theorem nodup_names_insert (h : (t.names place).Nodup) :
    ((t.insert (place ++ [name]) node).names place).Nodup := by
  have hnames : (t.insert (place ++ [name]) node).names place =
      name :: (t.erase (place ++ [name])).names place := by
    exact List.filterMap_cons_some (nameIn?_eq_some.mpr rfl)
  rw [hnames, List.nodup_cons]
  refine ⟨fun hmem => ?_, nodup_names_erase h _⟩
  obtain ⟨node, hnode⟩ := mem_names.mp hmem
  simpa using (List.mem_filter.mp hnode).2

/-- The name of a node that is kept by a move. -/
theorem nameIn?_moved (a b : Bytes) (path : NodePath) :
    (if path == place ++ [a] || path != place ++ [b] then
        nameIn? place (moved (place ++ [a]) (place ++ [b]) path) else none) =
      ((nameIn? place path).filter fun n => n == a || n != b).map fun n =>
        if n = a then b else n := by
  cases hname : nameIn? place path with
  | none =>
    have hnot : ∀ n, path ≠ place ++ [n] := fun n hn => by
      rw [nameIn?_eq_some.mpr hn] at hname
      cases hname
    have hmoved : nameIn? place (moved (place ++ [a]) (place ++ [b]) path) = none := by
      unfold moved
      split
      · next h =>
        obtain ⟨rest, rfl⟩ := List.isPrefixOf_iff_prefix.mp h
        rw [List.drop_left, Option.eq_none_iff_forall_ne_some]
        intro n hn
        rw [nameIn?_eq_some, List.append_assoc, List.append_cancel_left_eq] at hn
        cases rest with
        | nil => exact hnot a (by simp)
        | cons x rest => simp at hn
      · exact hname
    rw [hmoved]
    simp
  | some n =>
    cases nameIn?_eq_some.mp hname
    by_cases hn : n = a
    · subst hn
      simp [moved, Option.filter_some]
    · have hbeside : ¬ (place ++ [a]).isPrefixOf (place ++ [n]) = true := by
        rw [List.isPrefixOf_iff_prefix, List.prefix_append_right_inj]
        simpa using Ne.symm hn
      by_cases hb : n = b
      · subst hb
        simp [hn, Option.filter_some]
      · simp [moved, hbeside, hn, hb, Option.filter_some]

theorem nodup_names_move (h : (t.names place).Nodup) (a b : Bytes) :
    ((t.move (place ++ [a]) (place ++ [b])).names place).Nodup := by
  have hnames : (t.move (place ++ [a]) (place ++ [b])).names place =
      ((t.names place).filter fun n => n == a || n != b).map fun n => if n = a then b else n := by
    rw [names, move_nodes, List.filterMap_map, List.filterMap_filter, names, List.filter_filterMap,
      List.map_filterMap]
    exact congrArg (List.filterMap · t.nodes) (funext fun x => nameIn?_moved a b x.1)
  rw [hnames]
  refine List.Nodup.map_on ?_ (h.filter _)
  intro x hx y hy hxy
  grind

theorem mem_nodes_iff (h : (t.names place).Nodup) :
    (place ++ [name], node) ∈ t.nodes ↔ t.find? (place ++ [name]) = some node := by
  rw [find?_of_ne_nil (by simp)]
  rw [names] at h
  generalize t.nodes = nodes at h ⊢
  induction nodes with
  | nil => simp
  | cons x nodes ih =>
    obtain ⟨path, node'⟩ := x
    by_cases hpath : path = place ++ [name]
    · subst hpath
      simp only [List.filterMap_cons, nameIn?_concat, List.nodup_cons] at h
      rw [List.lookup_cons_self, List.mem_cons]
      refine ⟨?_, ?_⟩
      · rintro (heq | hmem)
        · cases heq
          rfl
        · exact absurd (List.mem_filterMap.mpr ⟨_, hmem, nameIn?_eq_some.mpr rfl⟩) h.1
      · intro heq
        cases heq
        exact .inl rfl
    · have hnodup : (nodes.filterMap fun x => nameIn? place x.1).Nodup :=
        h.sublist (List.Sublist.filterMap _ (List.sublist_cons_self ..))
      rw [lookup_cons_of_ne (Ne.symm hpath), List.mem_cons, ← ih hnodup]
      refine or_iff_right fun heq => hpath ?_
      cases heq
      rfl

/-! ## Listing -/

theorem entries_perm (t : Tree) (place : NodePath) :
    (t.entries place).Perm (t.nodes.filterMap fun x =>
      (nameIn? place x.1).map fun n => ⟨n, x.2.isDirectory⟩) := by
  refine (List.mergeSort_perm ..).trans (.of_eq (congrArg (List.filterMap · t.nodes) ?_))
  funext ⟨path, node⟩
  simp only [nameIn?]
  split <;> rfl

theorem mem_entries (h : (t.names place).Nodup) {e : DirectoryEntry} :
    e ∈ t.entries place ↔
      (t.find? (place ++ [e.name])).map Node.isDirectory = some e.isDirectory := by
  rw [(t.entries_perm place).mem_iff]
  simp only [List.mem_filterMap, Option.map_eq_some_iff, nameIn?_eq_some, Prod.exists,
    ← mem_nodes_iff h]
  constructor
  · rintro ⟨path, node, hmem, n, rfl, rfl⟩
    exact ⟨node, hmem, rfl⟩
  · rintro ⟨node, hmem, hdir⟩
    exact ⟨_, node, hmem, e.name, rfl, by rw [hdir]⟩

theorem nodup_entries (h : (t.names place).Nodup) : (t.entries place).Nodup := by
  rw [(t.entries_perm place).nodup_iff]
  refine .of_map DirectoryEntry.name ?_
  rw [List.map_filterMap]
  simpa [names, Option.map_map, Function.comp_def] using h

theorem sorted_entries (t : Tree) (place : NodePath) :
    (t.entries place).Pairwise fun a b => a.name ≤ b.name := by
  have hle : ∀ a b : Bytes, Bytes.le a b = true ↔ a ≤ b := fun a b => by simp [Bytes.le]
  refine (List.pairwise_mergeSort ?_ ?_ _).imp fun h => (hle _ _).mp h
  · intro a b c hab hbc
    rw [hle] at hab hbc ⊢
    exact List.le_trans hab hbc
  · intro a b
    rw [Bool.or_eq_true, hle, hle]
    exact List.le_total a.name b.name

/-! ## Commands in a folder -/

theorem lookup_of_resolve {path : Bytes} (h : t.resolve path = .ok place) :
    t.lookup path =
      match t.find? place with
      | some node => .ok (place, node)
      | none => .error .notFound := by
  rw [lookup, h]
  rfl

theorem lookup_of_error {path : Bytes} {reason : FileReason} (h : t.resolve path = .error reason) :
    t.lookup path = .error reason := by
  rw [lookup, h]
  rfl

/-- A path leads to a directory in which each name stands for the node that `c`
gives. -/
structure Folder (t : Tree) (dir : Bytes) (place : NodePath) (c : Bytes → Option Node) : Prop where
  opens : t.Opens dir place
  distinct : (t.names place).Nodup
  child : ∀ name, t.find? (place ++ [name]) = c name

def contentOf : Option Node → Bytes
  | some (.file _ data _) => data
  | _ => []

def IsDirectoryIn (c : Bytes → Option Node) (name : Bytes) : Prop :=
  ∃ mode, c name = some (.directory mode)

/-- A file can be written under a name. -/
def Accepts (dir : Bytes) (c : Bytes → Option Node) (name : Bytes) : Prop :=
  HasRoom dir name ∧ ¬ IsDirectoryIn c name

namespace Folder

variable {c : Bytes → Option Node} (h : t.Folder dir place c)

include h

theorem listAt : t.listAt dir = .ok (t.entries place) := by
  obtain ⟨mode, hmode⟩ := h.opens.isDirectoryAt
  simp only [Tree.listAt, lookup_of_resolve h.opens.leads, hmode]

theorem mem_entries {e : DirectoryEntry} :
    e ∈ t.entries place ↔ (c e.name).map Node.isDirectory = some e.isDirectory := by
  rw [Tree.mem_entries h.distinct, h.child]

/-- Another path of the same folder. -/
theorem clean (hlength : (Path.clean dir).length < maxPath) :
    t.Folder (Path.clean dir) place c :=
  ⟨h.opens.clean hlength, h.distinct, h.child⟩

theorem not_isDirectoryAt (hc : ¬ IsDirectoryIn c name) : ¬ t.IsDirectoryAt (place ++ [name]) :=
  fun ⟨mode, hmode⟩ => hc ⟨mode, (h.child name).symm.trans hmode⟩

theorem insert (hc : ¬ IsDirectoryIn c name) (node : Node) :
    (t.insert (place ++ [name]) node).Folder dir place (Function.update c name (some node)) where
  opens := h.opens.keep (keeps_insert (h.not_isDirectoryAt hc))
  distinct := nodup_names_insert h.distinct
  child n := by
    rw [find?_insert (by simp), h.child, Function.update_apply]
    simp

theorem erase (hc : ¬ IsDirectoryIn c name) :
    (t.erase (place ++ [name])).Folder dir place (Function.update c name none) where
  opens := h.opens.keep (keeps_erase (h.not_isDirectoryAt hc))
  distinct := nodup_names_erase h.distinct _
  child n := by
    rw [find?_erase (by simp), h.child, Function.update_apply]
    simp

theorem addFile (hc : ¬ IsDirectoryIn c name) (data : Bytes) (mode : Nat) :
    (t.addFile (place ++ [name]) data mode).2.Folder dir place
      (Function.update c name (some (.file t.serial data mode))) where
  opens := h.opens.keep (keeps_addFile (h.not_isDirectoryAt hc))
  distinct := nodup_names_insert h.distinct
  child n := by
    rw [find?_addFile (by simp), h.child, Function.update_apply]
    simp

theorem move {a b : Bytes} (ha : ¬ IsDirectoryIn c a) (hb : ¬ IsDirectoryIn c b) (hab : a ≠ b) :
    (t.move (place ++ [a]) (place ++ [b])).Folder dir place
      (Function.update (Function.update c a none) b (c a)) where
  opens := h.opens.keep (keeps_move (h.not_isDirectoryAt ha) (h.not_isDirectoryAt hb))
  distinct := nodup_names_move h.distinct a b
  child n := by
    have hbeside : ∀ x y : Bytes, x ≠ y → ¬ place ++ [x] <+: place ++ [y] := by
      intro x y hxy
      rw [List.prefix_append_right_inj]
      simpa using hxy
    by_cases hn : n = b
    · subst hn
      rw [find?_move_goal (by simp) (by simp), h.child, Function.update_self]
    rw [Function.update_of_ne hn]
    by_cases hn' : n = a
    · subst hn'
      rw [find?_move_source (by simp) (hbeside b n (Ne.symm hab)), Function.update_self]
    · rw [find?_move_of_apart (hbeside a n (Ne.symm hn')) (hbeside b n (Ne.symm hn)), h.child,
        Function.update_of_ne hn']

/-! ### Reading -/

variable (hname : IsName name)

include hname

theorem lookup_join (hroom : HasRoom dir name) :
    t.lookup (Path.join [dir, name]) =
      match c name with
      | some node => .ok (place ++ [name], node)
      | none => .error .notFound := by
  rw [lookup_of_resolve ((h.opens.resolve_join hname).trans (if_pos hroom)), h.child]

theorem readAt_of_not_hasRoom (hroom : ¬ HasRoom dir name) :
    t.readAt (Path.join [dir, name]) = refuse "open" (Path.join [dir, name]) .nameTooLong := by
  rw [Tree.readAt, lookup_of_error ((h.opens.resolve_join hname).trans (if_neg hroom))]

theorem readAt (hroom : HasRoom dir name) :
    t.readAt (Path.join [dir, name]) =
      match c name with
      | some (.file _ data _) => .ok data
      | some (.directory _) => refuse "read" (Path.join [dir, name]) .isDirectory
      | none => refuse "open" (Path.join [dir, name]) .notFound := by
  rw [Tree.readAt, h.lookup_join hname hroom]
  cases c name with
  | none => rfl
  | some node => cases node <;> rfl

/-! ### Changing -/

theorem editAt (haccepts : Accepts dir c name) (mode : Nat) (edit : Bytes → Bytes) :
    ∃ id mode' t', t.editAt (Path.join [dir, name]) mode edit = (.ok id, t') ∧
      t'.Folder dir place
        (Function.update c name (some (.file id (edit (contentOf (c name))) mode'))) := by
  obtain ⟨hroom, hc⟩ := haccepts
  have hresolve := (h.opens.resolve_join hname).trans (if_pos hroom)
  rw [Tree.editAt, hresolve]
  simp only [h.child]
  split
  · next m hm => exact absurd ⟨m, hm⟩ hc
  · next id data m hm =>
    rw [hm] at *
    exact ⟨id, m, _, rfl, h.insert hc _⟩
  · next hm =>
    rw [hm] at *
    exact ⟨t.serial, mode, _, rfl, h.addFile hc _ mode⟩

/-- Where no file can be written, nothing changes. -/
theorem editAt_of_not_accepts (hnot : ¬ Accepts dir c name) (mode : Nat) (edit : Bytes → Bytes) :
    ∃ fault, t.editAt (Path.join [dir, name]) mode edit = (.error fault, t) := by
  rw [Tree.editAt, h.opens.resolve_join hname]
  split
  · exact ⟨_, rfl⟩
  · next hresolve =>
    split at hresolve
    · next hroom =>
      cases hresolve
      obtain ⟨m, hm⟩ : IsDirectoryIn c name := by
        by_contra hc
        exact hnot ⟨hroom, hc⟩
      simp only [h.child, hm]
      exact ⟨_, rfl⟩
    · cases hresolve

theorem removeAt (hroom : HasRoom dir name) {id : FileId} {data : Bytes} {mode : Nat}
    (hc : c name = some (.file id data mode)) :
    ∃ t', t.removeAt (Path.join [dir, name]) = (.ok (), t') ∧
      t'.Folder dir place (Function.update c name none) := by
  refine ⟨t.erase (place ++ [name]), ?_, h.erase fun ⟨m, hm⟩ => by rw [hc] at hm; cases hm⟩
  rw [Tree.removeAt, h.lookup_join hname hroom, hc]

omit h hname in
theorem isPinned_join (hdir : dir ≠ []) (hname : IsName name) :
    isPinned (Path.join [dir, name]) (place ++ [name]) = false := by
  have hclean := (Path.isClean_parts dir).concat hname
  have htrim : ∀ s : Bytes, s.getLast? ≠ some Bytes.slash →
      (s.reverse.dropWhile (· == Bytes.slash)).reverse = s := by
    intro s hs
    rcases List.eq_nil_or_concat s with rfl | ⟨front, last, rfl⟩
    · rfl
    · have hlast : last ≠ Bytes.slash := by simpa using hs
      simp [hlast]
  rw [isPinned, Path.join_name hdir hname, htrim _ (getLast?_render_ne hclean (by simp)),
    components_render hclean, if_neg (by simp)]
  simp [hname.ne_here, hname.ne_above]

omit hname in
theorem renameAt {a b : Bytes} (hnameA : IsName a) (hnameB : IsName b) (hroomA : HasRoom dir a)
    (hroomB : HasRoom dir b) {id : FileId} {data : Bytes} {mode : Nat}
    (ha : c a = some (.file id data mode)) (hb : ¬ IsDirectoryIn c b) (hab : a ≠ b) :
    ∃ t', t.renameAt (Path.join [dir, a]) (Path.join [dir, b]) = (.ok (), t') ∧
      t'.Folder dir place (Function.update (Function.update c a none) b (c a)) := by
  have hnotA : ¬ IsDirectoryIn c a := fun ⟨m, hm⟩ => by rw [ha] at hm; cases hm
  refine ⟨t.move (place ++ [a]) (place ++ [b]), ?_, h.move hnotA hb hab⟩
  have hlookup := h.lookup_join hnameA hroomA
  rw [ha] at hlookup
  rw [Tree.renameAt, hlookup, (h.opens.resolve_join hnameB).trans (if_pos hroomB)]
  simp only [h.child, isPinned_join h.opens.ne_nil hnameA, Node.isDirectory, Bool.false_and,
    Bool.false_eq_true, if_false]
  split
  · next m hm => exact absurd ⟨m, hm⟩ hb
  · rfl

end Folder

end Tree

end ScanTriage
