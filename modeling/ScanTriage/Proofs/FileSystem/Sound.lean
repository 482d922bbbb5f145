import ScanTriage.Proofs.FileSystem.Run

/-!
# Sound trees

A walk ends at a place that its components tell, and all it needs of a tree is
directories to pass (`walk_eq_ok_iff`). In a sound tree everything stands in a
directory, so a file is found wherever a path that cannot be shortened names it
(`IsSound.contentAt_eq_some_iff`). The changes that commands make keep a tree sound.
-/

namespace ScanTriage

namespace Tree

open ScanTriage.Path (IsName IsClean render parts push Settled)

variable {t t' : Tree} {path : Bytes} {place start q : NodePath} {node : Node}

/-! ## Where components lead -/

/-- The place that one more component leads to, whatever is there. -/
def onward (place : NodePath) (part : Bytes) : NodePath :=
  if part = "." then place else if part = ".." then place.dropLast else place ++ [part]

/-- The place that components lead to. -/
def ahead (start : NodePath) (parts : List Bytes) : NodePath := parts.foldl onward start

theorem ahead_append (start : NodePath) (a b : List Bytes) :
    ahead start (a ++ b) = ahead (ahead start a) b := List.foldl_append

theorem ahead_concat (start : NodePath) (a : List Bytes) (part : Bytes) :
    ahead start (a ++ [part]) = onward (ahead start a) part := ahead_append start a [part]

theorem onward_here (place : NodePath) : onward place "." = place := rfl

theorem onward_above (place : NodePath) : onward place ".." = place.dropLast := rfl

theorem onward_name {part : Bytes} (hhere : part ≠ ".") (habove : part ≠ "..") :
    onward place part = place ++ [part] := by
  rw [onward, if_neg hhere, if_neg habove]

theorem walk_singleton_iff {part : Bytes} :
    t.walk start [part] = .ok q ↔
      t.IsDirectoryAt start ∧ part.length ≤ maxName ∧ q = onward start part := by
  rw [walk_singleton_eq_ok]
  refine and_congr_right fun _ => ?_
  by_cases hhere : part = "."
  · have hother : ("." : Bytes) ≠ ".." := by decide
    have hshort : ("." : Bytes).length ≤ maxName := by decide
    simp [hhere, hother, hshort, onward_here]
  by_cases habove : part = ".."
  · have hother : (".." : Bytes) ≠ "." := by decide
    have hshort : (".." : Bytes).length ≤ maxName := by decide
    simp [habove, hother, hshort, onward_above]
  · simp [hhere, habove, onward_name hhere habove]

/-- A walk needs short components and directories to pass. -/
theorem walk_eq_ok_iff {ps : List Bytes} :
    t.walk start ps = .ok q ↔ q = ahead start ps ∧ (∀ p ∈ ps, p.length ≤ maxName) ∧
      ∀ front, front <+: ps → front ≠ ps → t.IsDirectoryAt (ahead start front) := by
  induction ps using List.reverseRecOn generalizing q with
  | nil =>
    refine ⟨?_, ?_⟩
    · rintro ⟨⟩
      exact ⟨rfl, by simp, fun front hfront hne => absurd (List.prefix_nil.mp hfront) hne⟩
    · rintro ⟨rfl, -⟩
      rfl
  | append_singleton ps part ih =>
    simp only [walk_append_eq_ok, ih, walk_singleton_iff]
    constructor
    · rintro ⟨r, ⟨rfl, hshort, hdirs⟩, hdir, hpart, rfl⟩
      refine ⟨(ahead_concat ..).symm, ?_, fun front hfront hne => ?_⟩
      · intro p hp
        rcases List.mem_append.mp hp with hp | hp
        · exact hshort p hp
        · rwa [List.mem_singleton.mp hp]
      · rcases List.prefix_concat_iff.mp hfront with rfl | hfront
        · exact absurd rfl hne
        · by_cases hps : front = ps
          · rwa [hps]
          · exact hdirs front hfront hps
    · rintro ⟨rfl, hshort, hdirs⟩
      have hproper : ∀ front, front <+: ps → front ≠ ps ++ [part] := by
        rintro front hfront rfl
        have hlength := hfront.length_le
        simp only [List.length_append, List.length_singleton] at hlength
        omega
      refine ⟨_, ⟨rfl, fun p hp => hshort p (by simp [hp]), fun front hfront _ => ?_⟩, ?_,
        hshort part (by simp), ahead_concat ..⟩
      · exact hdirs front (hfront.trans (List.prefix_append ..)) (hproper front hfront)
      · exact hdirs ps (List.prefix_append ..) (hproper ps (List.prefix_refl _))

/-- The place that a path text names. -/
def goal (t : Tree) (path : Bytes) : NodePath := ahead (t.startOf path) (components path)

/-- A path text is no longer than it may be, and neither are its components. -/
structure Fits (path : Bytes) : Prop where
  no_nul : 0 ∉ path
  ne_nil : path ≠ []
  length : path.length < maxPath
  components : ∀ p ∈ components path, p.length ≤ maxName

theorem resolve_eq_ok_iff :
    t.resolve path = .ok q ↔ q = t.goal path ∧ Fits path ∧
      ∀ front, front <+: components path → front ≠ components path →
        t.IsDirectoryAt (ahead (t.startOf path) front) := by
  rw [resolve_eq_ok, walk_eq_ok_iff]
  constructor
  · rintro ⟨⟨hnul, hne, hlength⟩, rfl, hshort, hdirs⟩
    exact ⟨rfl, ⟨hnul, hne, hlength, hshort⟩, hdirs⟩
  · rintro ⟨rfl, ⟨hnul, hne, hlength, hshort⟩, hdirs⟩
    exact ⟨⟨hnul, hne, hlength⟩, rfl, hshort, hdirs⟩

theorem eq_goal_of_resolve (h : t.resolve path = .ok q) : q = t.goal path :=
  (resolve_eq_ok_iff.mp h).1

theorem goal_of_working (h : t'.working = t.working) (path : Bytes) : t'.goal path = t.goal path := by
  rw [goal, startOf, h]
  rfl

/-- A path to a directory passes directories from its start to its end. -/
theorem isDirectory_eq_true_iff :
    t.isDirectory path = true ↔ Fits path ∧
      ∀ front, front <+: components path → t.IsDirectoryAt (ahead (t.startOf path) front) := by
  rw [isDirectory_iff]
  constructor
  · rintro ⟨place, hresolve, hdir⟩
    obtain ⟨rfl, hfits, hdirs⟩ := resolve_eq_ok_iff.mp hresolve
    refine ⟨hfits, fun front hfront => ?_⟩
    by_cases hall : front = components path
    · rw [hall]
      exact hdir
    · exact hdirs front hfront hall
  · rintro ⟨hfits, hdirs⟩
    exact ⟨t.goal path, resolve_eq_ok_iff.mpr ⟨rfl, hfits, fun front hfront _ => hdirs front hfront⟩,
      hdirs _ (List.prefix_refl _)⟩

theorem readAt_eq_ok {data : Bytes} :
    t.readAt path = .ok data ↔
      ∃ place id mode, t.resolve path = .ok place ∧ t.find? place = some (.file id data mode) := by
  unfold readAt
  cases hresolve : t.resolve path with
  | error reason => simp [lookup_of_error hresolve, refuse]
  | ok place =>
    rw [lookup_of_resolve hresolve]
    rcases hfind : t.find? place with _ | ⟨id, data', mode⟩ | mode <;> simp [hfind, refuse]

/-! ## Sound trees -/

def idOf? : Node → Option FileId
  | .file id _ _ => some id
  | .directory _ => none

/-- Everything stands in a directory, and the files that are there and those that
are locked were made. -/
structure IsSound (t : Tree) : Prop extends IsProper t where
  parents : ∀ {q node}, q ≠ [] → t.find? q = some node → t.IsDirectoryAt q.dropLast
  made : ∀ {q node}, t.find? q = some node → ∀ id ∈ idOf? node, id < t.serial
  locked : ∀ id ∈ t.locks, id < t.serial

theorem mem_nodes_of_find? (hq : q ≠ []) (h : t.find? q = some node) : (q, node) ∈ t.nodes := by
  rw [find?_of_ne_nil hq] at h
  obtain ⟨l₁, l₂, hnodes, -⟩ := List.lookup_eq_some_iff.mp h
  rw [hnodes]
  simp

theorem isSound_of_root (hdistinct : (t.nodes.map Prod.fst).Nodup) (hworking : t.working = [])
    (hparents : ∀ x ∈ t.nodes, (t.find? x.1.dropLast).any Node.isDirectory)
    (hmade : ∀ x ∈ t.nodes, ∀ id ∈ idOf? x.2, id < t.serial)
    (hlocked : ∀ id ∈ t.locks, id < t.serial) : t.IsSound where
  toIsProper := isProper_of_root hdistinct hworking
  parents := by
    intro q node hq hfind
    have hany := hparents _ (mem_nodes_of_find? hq hfind)
    rcases hparent : t.find? q.dropLast with _ | ⟨id, data, mode⟩ | mode
    · simp [hparent] at hany
    · simp [hparent, Node.isDirectory] at hany
    · exact ⟨mode, hparent⟩
  made := by
    intro q node hfind
    by_cases hq : q = []
    · rw [hq] at hfind
      cases hfind
      simp [idOf?]
    · exact hmade _ (mem_nodes_of_find? hq hfind)
  locked := hlocked

/-- What a walk ends at stands in a directory, if it is none itself. -/
theorem isDirectoryAt_of_walk {ps : List Bytes} (hstart : t.Reaches start)
    (hwalk : t.walk start ps = .ok q) (hnot : ¬ t.IsDirectoryAt q) :
    t.IsDirectoryAt q.dropLast := by
  rcases List.eq_nil_or_concat ps with rfl | ⟨front, part, rfl⟩
  · cases hwalk
    exact absurd hstart.isDirectoryAt hnot
  · rw [List.concat_eq_append] at hwalk
    obtain ⟨r, hr, hstep⟩ := walk_append_eq_ok.mp hwalk
    obtain ⟨hdir, ⟨-, rfl⟩ | ⟨-, rfl⟩ | ⟨-, -, -, rfl⟩⟩ := walk_singleton_eq_ok.mp hstep
    · exact absurd hdir hnot
    · exact absurd (reaches_of_walk hstart hr hdir _ (List.dropLast_prefix _)) hnot
    · rwa [List.dropLast_concat]

theorem IsProper.isDirectoryAt_dropLast (h : t.IsProper) (hresolve : t.resolve path = .ok q)
    (hnot : ¬ t.IsDirectoryAt q) : t.IsDirectoryAt q.dropLast :=
  isDirectoryAt_of_walk (reaches_startOf h.working path) (resolve_eq_ok.mp hresolve).2 hnot

theorem not_isDirectoryAt_of_none (h : t.find? q = none) : ¬ t.IsDirectoryAt q := by
  rintro ⟨mode, hmode⟩
  rw [h] at hmode
  cases hmode

theorem not_isDirectoryAt_of_file {id : FileId} {data : Bytes} {mode : Nat}
    (h : t.find? q = some (.file id data mode)) : ¬ t.IsDirectoryAt q := by
  rintro ⟨mode', hmode⟩
  rw [h] at hmode
  cases hmode

theorem ne_nil_of_not_isDirectoryAt (h : ¬ t.IsDirectoryAt q) : q ≠ [] := by
  rintro rfl
  exact h ⟨_, rfl⟩

namespace IsSound

theorem reaches (h : t.IsSound) (hq : t.IsDirectoryAt q) : t.Reaches q := by
  induction q using List.reverseRecOn with
  | nil =>
    intro r hr
    rwa [List.prefix_nil.mp hr]
  | append_singleton q name ih =>
    obtain ⟨mode, hmode⟩ := hq
    have hparent := h.parents (by simp) hmode
    rw [List.dropLast_concat] at hparent
    exact (ih hparent).concat ⟨mode, hmode⟩

/-- Nothing stands below what is no directory. -/
theorem find?_below (h : t.IsSound) {r : NodePath} (hq : ¬ t.IsDirectoryAt q) (hr : q <+: r)
    (hne : r ≠ q) : t.find? r = none := by
  obtain ⟨rest, rfl⟩ := hr
  by_contra hsome
  obtain ⟨node, hnode⟩ := Option.ne_none_iff_exists'.mp hsome
  have hrest : rest ≠ [] := by simpa using hne
  have hparent := h.parents (by simp [hrest]) hnode
  rw [List.dropLast_append_of_ne_nil hrest] at hparent
  exact hq (h.reaches hparent q (List.prefix_append ..))

/-! ### Changes -/

theorem parents_of_update (h : t.IsSound) {p : NodePath} (hdir : t.IsDirectoryAt p.dropLast)
    (hnot : ¬ t.IsDirectoryAt p) (hfind : ∀ q, q ≠ [] → q ≠ p → t'.find? q = t.find? q) :
    ∀ {q node}, q ≠ [] → t'.find? q = some node → t'.IsDirectoryAt q.dropLast := by
  have hkept : ∀ r, t.IsDirectoryAt r → t'.IsDirectoryAt r := by
    rintro r ⟨mode, hmode⟩
    by_cases hr : r = []
    · rw [hr]
      exact ⟨_, rfl⟩
    · refine ⟨mode, ?_⟩
      rw [hfind r hr fun heq => hnot (heq ▸ ⟨mode, hmode⟩), hmode]
  intro q node hq hnode
  by_cases hp : q = p
  · rw [hp]
    exact hkept _ hdir
  · rw [hfind q hq hp] at hnode
    exact hkept _ (h.parents hq hnode)

theorem made_insert (h : t.IsSound) {serial : Nat} (hserial : t.serial ≤ serial)
    (hnode : ∀ id ∈ idOf? node, id < serial) {node' : Node}
    (hfind : (t.insert place node).find? q = some node') : ∀ id ∈ idOf? node', id < serial := by
  by_cases hq : q = []
  · rw [hq] at hfind
    cases hfind
    exact nofun
  rw [find?_insert hq] at hfind
  split at hfind
  · cases hfind
    exact hnode
  · exact fun id hid => (h.made hfind id hid).trans_le hserial

theorem insert (h : t.IsSound) (hdir : t.IsDirectoryAt place.dropLast)
    (hnot : ¬ t.IsDirectoryAt place) (hnode : ∀ id ∈ idOf? node, id < t.serial) :
    (t.insert place node).IsSound where
  toIsProper := h.toIsProper.insert hnot node
  parents := h.parents_of_update hdir hnot fun q hq hne => by rw [find?_insert hq, if_neg hne]
  made hfind := h.made_insert (Nat.le_refl _) hnode hfind
  locked := h.locked

theorem addFile (h : t.IsSound) (hdir : t.IsDirectoryAt place.dropLast)
    (hnot : ¬ t.IsDirectoryAt place) (data : Bytes) (mode : Nat) :
    (t.addFile place data mode).2.IsSound where
  toIsProper :=
    have hproper := h.toIsProper.insert hnot (.file t.serial data mode)
    ⟨hproper.distinct, hproper.working⟩
  parents := h.parents_of_update hdir hnot fun q hq hne => by rw [find?_addFile hq, if_neg hne]
  made hfind := h.made_insert (Nat.le_succ _) (by rintro _ ⟨⟩; exact Nat.lt_succ_self _) hfind
  locked id hid := Nat.lt_succ_of_lt (h.locked id hid)

theorem makeDirectoryAt (h : t.IsSound) (path : Bytes) : (t.makeDirectoryAt path).2.IsSound := by
  rw [Tree.makeDirectoryAt]
  split
  · exact h
  · next place hresolve =>
    split
    · exact h
    · next hnone =>
      have hnot := not_isDirectoryAt_of_none hnone
      exact h.insert (h.isDirectoryAt_dropLast hresolve hnot) hnot (by simp [idOf?])

end IsSound

/-! ### Moving a file to the place of another -/

section Move

variable {a b : Bytes}

theorem not_prefix_sibling (hab : a ≠ b) : ¬ place ++ [a] <+: place ++ [b] := by
  rw [List.prefix_append_right_inj]
  simpa using hab

theorem find?_ne_none_of_mem (hq : q ≠ []) (h : (q, node) ∈ t.nodes) : t.find? q ≠ none := by
  rw [find?_of_ne_nil hq]
  intro hnone
  simpa using List.lookup_eq_none_iff.mp hnone _ h

namespace IsSound

variable (h : t.IsSound) (ha : ¬ t.IsDirectoryAt (place ++ [a]))
  (hb : ¬ t.IsDirectoryAt (place ++ [b])) (hab : a ≠ b)

include h ha

/-- A file has nothing below it that would be moved along. -/
theorem moved_eq (hmem : (q, node) ∈ t.nodes) :
    moved (place ++ [a]) (place ++ [b]) q = if q = place ++ [a] then place ++ [b] else q := by
  unfold moved
  split
  · next hbelow =>
    rw [List.isPrefixOf_iff_prefix] at hbelow
    have hq : q = place ++ [a] := by
      by_contra hne
      have hnil : q ≠ [] := fun hnil => by simp [hnil] at hbelow
      exact find?_ne_none_of_mem hnil hmem (h.find?_below ha hbelow hne)
    rw [if_pos hq, hq]
    simp
  · next hbelow => rw [if_neg fun hq => hbelow (by simp [hq])]

include hb hab

theorem find?_move (hq : q ≠ []) :
    (t.move (place ++ [a]) (place ++ [b])).find? q =
      if q = place ++ [b] then t.find? (place ++ [a])
      else if q = place ++ [a] then none else t.find? q := by
  split
  · next hgoal => rw [hgoal, find?_move_goal (by simp) (by simp)]
  next hgoal =>
  split
  · next hsource => rw [hsource, find?_move_source (by simp) (not_prefix_sibling (Ne.symm hab))]
  next hsource =>
  by_cases hbelow : place ++ [a] <+: q ∨ place ++ [b] <+: q
  · -- Nothing was below the two, and nothing has come there.
    have hnone : t.find? q = none := by
      rcases hbelow with hbelow | hbelow
      · exact h.find?_below ha hbelow hsource
      · exact h.find?_below hb hbelow hgoal
    rw [hnone, find?_of_ne_nil hq, move_nodes, List.lookup_eq_none_iff]
    intro x hx
    obtain ⟨y, hy, rfl⟩ := List.mem_map.mp hx
    have hmem := (List.mem_filter.mp hy).1
    suffices hne : q ≠ moved (place ++ [a]) (place ++ [b]) y.1 by simpa using hne
    rw [h.moved_eq ha hmem]
    split
    · exact hgoal
    · rintro rfl
      exact find?_ne_none_of_mem hq hmem hnone
  · rw [not_or] at hbelow
    exact find?_move_of_apart hbelow.1 hbelow.2

theorem move (hdir : t.IsDirectoryAt place) : (t.move (place ++ [a]) (place ++ [b])).IsSound := by
  have hkeeps := keeps_move ha hb
  refine ⟨⟨?_, hkeeps.reaches _ h.working⟩, ?_, ?_, h.locked⟩
  · have hkeys : (t.move (place ++ [a]) (place ++ [b])).nodes.map Prod.fst =
        ((t.nodes.filter fun x => x.1 == place ++ [a] || x.1 != place ++ [b]).map Prod.fst).map
          fun q => if q = place ++ [a] then place ++ [b] else q := by
      rw [move_nodes, List.map_map, List.map_map]
      exact List.map_congr_left fun x hx => h.moved_eq ha (List.mem_filter.mp hx).1
    rw [hkeys]
    refine List.Nodup.map_on ?_ (h.distinct.sublist (List.filter_sublist.map _))
    intro x hx y hy hxy
    obtain ⟨x', hx', rfl⟩ := List.mem_map.mp hx
    obtain ⟨y', hy', rfl⟩ := List.mem_map.mp hy
    have hkeptX := (List.mem_filter.mp hx').2
    have hkeptY := (List.mem_filter.mp hy').2
    grind
  · intro q node hq hnode
    rw [h.find?_move ha hb hab hq] at hnode
    split at hnode
    · next hgoal =>
      rw [hgoal, List.dropLast_concat]
      exact (hkeeps.reaches _ (h.reaches hdir)).isDirectoryAt
    split at hnode
    · cases hnode
    · exact (hkeeps.reaches _ (h.reaches (h.parents hq hnode))).isDirectoryAt
  · intro q node hnode
    by_cases hq : q = []
    · rw [hq] at hnode
      cases hnode
      exact nofun
    rw [h.find?_move ha hb hab hq] at hnode
    split at hnode
    · exact h.made hnode
    split at hnode
    · cases hnode
    · exact h.made hnode

end IsSound

end Move

/-! ## Paths that cannot be shortened -/

/-- Only steps upwards come before one. -/
theorem ahead_of_settled_above {rooted : Bool} {stack : List Bytes}
    (h : Settled rooted ((".." : Bytes) :: stack)) : ahead start stack.reverse <+: start := by
  induction stack with
  | nil => exact List.prefix_refl start
  | cons top below ih =>
    have htop : top = ".." := by
      by_contra hne
      have hlength := congrArg List.length h.1
      rw [Path.push_above_cons hne] at hlength
      simp only [List.length_cons] at hlength
      omega
    rw [htop] at h ⊢
    rw [List.reverse_cons, ahead_concat, onward_above]
    exact (List.dropLast_prefix _).trans (ih h.2)

/-- On the way a settled path stays above its start or above its end. -/
theorem ahead_of_settled {rooted : Bool} {stack front : List Bytes} (h : Settled rooted stack)
    (hfront : front <+: stack.reverse) (hne : front ≠ stack.reverse) :
    ahead start front <+: start ∨
      ahead start front <+: (ahead start stack.reverse).dropLast := by
  induction stack with
  | nil => exact absurd (List.prefix_nil.mp hfront) hne
  | cons top below ih =>
    rw [List.reverse_cons] at hfront hne ⊢
    have hfront' := (List.prefix_concat_iff.mp hfront).resolve_left hne
    have hhere : top ≠ "." := by
      rintro rfl
      have hlength := congrArg List.length h.1
      simp [Path.push_here] at hlength
    have hbelow : ahead start front <+: start ∨ ahead start front <+: ahead start below.reverse := by
      by_cases hall : front = below.reverse
      · rw [hall]
        exact .inr (List.prefix_refl _)
      · exact (ih h.2 hfront' hall).imp_right fun hup => hup.trans (List.dropLast_prefix _)
    by_cases habove : top = ".."
    · rw [habove] at h
      exact .inl (hbelow.elim id fun hup => hup.trans (ahead_of_settled_above h))
    · rw [ahead_concat, onward_name hhere habove, List.dropLast_concat]
      exact hbelow

/-- A path that is cleaned already, or none at all. -/
def IsCleaned (path : Bytes) : Prop := path ≠ [] → Path.clean path = path

theorem isCleaned_absolute (working path : Bytes) : IsCleaned (Path.absolute working path) := by
  intro hne
  unfold Path.absolute at hne ⊢
  split
  · exact Path.clean_clean path
  · next hrelative =>
    rw [if_neg hrelative] at hne
    unfold Path.join at hne ⊢
    split
    · next hnone =>
      rw [hnone] at hne
      exact absurd rfl hne
    · exact Path.clean_clean _

theorem IsSound.resolve_of_file (h : t.IsSound) (hclean : IsCleaned path) (hfits : Fits path)
    (hgoal : t.find? (t.goal path) = some node) (hnot : ¬ t.IsDirectoryAt (t.goal path)) :
    t.resolve path = .ok (t.goal path) := by
  have hparts := Path.isClean_parts path
  have hpath : path = render (Path.isAbsolute path) (parts path) := by
    rw [← Path.clean_eq_render, hclean hfits.ne_nil]
  have hcomponents : components path = if parts path = [] then [("." : Bytes)] else parts path := by
    rw [← components_render hparts, ← hpath]
  have hstart := reaches_startOf h.working path
  have hne : parts path ≠ [] := by
    intro hnil
    rw [hnil, if_pos rfl] at hcomponents
    apply hnot
    rw [goal, hcomponents]
    exact hstart.isDirectoryAt
  rw [if_neg hne] at hcomponents
  refine resolve_eq_ok_iff.mpr ⟨rfl, hfits, fun front hfront hproper => ?_⟩
  rw [hcomponents, ← List.reverse_reverse (parts path)] at hfront hproper
  rcases ahead_of_settled hparts.settled hfront hproper with hup | hup
  · exact hstart _ hup
  · rw [List.reverse_reverse, ← hcomponents] at hup
    exact h.reaches (h.parents (ne_nil_of_not_isDirectoryAt hnot) hgoal) _ hup

def dataOf? : Option Node → Option Bytes
  | some (.file _ data _) => some data
  | _ => none

def contentAt (t : Tree) (path : Bytes) : Option Bytes := (t.readAt path).toOption

theorem contentAt_eq_some {data : Bytes} :
    t.contentAt path = some data ↔ t.readAt path = .ok data := by
  unfold contentAt
  cases t.readAt path <;> simp [Except.toOption]

theorem dataOf?_eq_some {node? : Option Node} {data : Bytes} :
    dataOf? node? = some data ↔ ∃ id mode, node? = some (.file id data mode) := by
  rcases node? with _ | ⟨id, data', mode⟩ | mode <;> simp [dataOf?]

theorem IsSound.contentAt_eq_some_iff (h : t.IsSound) (hclean : IsCleaned path) {data : Bytes} :
    t.contentAt path = some data ↔ Fits path ∧ dataOf? (t.find? (t.goal path)) = some data := by
  rw [contentAt_eq_some, readAt_eq_ok, dataOf?_eq_some]
  constructor
  · rintro ⟨place, id, mode, hresolve, hfile⟩
    obtain ⟨rfl, hfits, -⟩ := resolve_eq_ok_iff.mp hresolve
    exact ⟨hfits, id, mode, hfile⟩
  · rintro ⟨hfits, id, mode, hfile⟩
    exact ⟨_, id, mode, h.resolve_of_file hclean hfits hfile (not_isDirectoryAt_of_file hfile), hfile⟩

/-- A path leads to the same content if the same content is at the place that it
names. -/
theorem IsSound.contentAt_congr (h : t.IsSound) (h' : t'.IsSound) (hworking : t'.working = t.working)
    (hclean : IsCleaned path)
    (hdata : dataOf? (t'.find? (t.goal path)) = dataOf? (t.find? (t.goal path))) :
    t'.contentAt path = t.contentAt path := by
  refine Option.ext fun data => ?_
  rw [h'.contentAt_eq_some_iff hclean, h.contentAt_eq_some_iff hclean, goal_of_working hworking, hdata]

end Tree

end ScanTriage
