import Mathlib.Data.List.Basic
import Mathlib.Data.List.Induction
import ScanTriage.FileSystem.Tree
import ScanTriage.Proofs.FileSystem.Path

/-!
# Where paths lead

A walk passes directories only. So a path that leads to a directory leads there
also when it is cleaned (`Opens.clean`), and a name put under it leads to the
place below (`Opens.resolve_join`). What a walk needs of a tree is that the
directories stay; `Keeps` says that of two trees.
-/

namespace ScanTriage

namespace Tree

open ScanTriage.Path (IsName IsClean render parts push Settled)

variable {t t' : Tree} {dir name : Bytes} {place start : NodePath}

/-! ## Walks -/

theorem walk_append (t : Tree) (start : NodePath) (a b : List Bytes) :
    t.walk start (a ++ b) = t.walk start a >>= fun place => t.walk place b := by
  induction a generalizing start with
  | nil => rfl
  | cons part a ih =>
    rw [List.cons_append, walk, walk]
    split
    · rfl
    · rfl
    · split
      · exact ih start
      split
      · exact ih start.dropLast
      split
      · rfl
      · exact ih (start ++ [part])

theorem walk_append_eq_ok {a b : List Bytes} {q : NodePath} :
    t.walk start (a ++ b) = .ok q ↔ ∃ r, t.walk start a = .ok r ∧ t.walk r b = .ok q := by
  rw [walk_append]
  cases t.walk start a with
  | error reason => exact ⟨nofun, nofun⟩
  | ok r => exact ⟨fun h => ⟨r, rfl, h⟩, fun ⟨_, h, h'⟩ => by cases h; exact h'⟩

def IsDirectoryAt (t : Tree) (place : NodePath) : Prop :=
  ∃ mode, t.find? place = some (.directory mode)

theorem walk_singleton_eq_ok {part : Bytes} {q : NodePath} :
    t.walk start [part] = .ok q ↔ t.IsDirectoryAt start ∧
      (part = "." ∧ q = start ∨ part = ".." ∧ q = start.dropLast ∨
        part ≠ "." ∧ part ≠ ".." ∧ part.length ≤ maxName ∧ q = start ++ [part]) := by
  have hend : ∀ r, t.walk r [] = .ok q ↔ q = r := fun r =>
    ⟨fun h => by cases h; rfl, fun h => by rw [h, walk]⟩
  unfold IsDirectoryAt
  rw [walk]
  split
  · next h => simp [h]
  · next h => simp [h]
  · next mode h =>
    by_cases hhere : part = "."
    · have hother : ("." : Bytes) ≠ ".." := by decide
      simp [h, hhere, hend, hother]
    by_cases habove : part = ".."
    · have hother : (".." : Bytes) ≠ "." := by decide
      simp [h, habove, hend, hother]
    · by_cases hlong : maxName < part.length
      · have hshort : ¬ part.length ≤ maxName := by omega
        simp [h, hhere, habove, hlong, hshort]
      · have hshort : part.length ≤ maxName := by omega
        simp [h, hhere, habove, hlong, hend, hshort]

/-- What a walk is led to, it is led to by the settled parts as well. -/
theorem walk_foldl_push {rooted : Bool} {pieces : List Bytes} {q : NodePath}
    (hstart : rooted = true → start = []) (hne : ∀ p ∈ pieces, p ≠ [])
    (h : t.walk start pieces = .ok q) :
    t.walk start (pieces.foldl (push rooted) []).reverse = .ok q := by
  induction pieces using List.reverseRecOn generalizing q with
  | nil => exact h
  | append_singleton pieces part ih =>
    obtain ⟨r, hr, hstep⟩ := walk_append_eq_ok.mp h
    have hwalk := ih (fun p hp => hne p (List.mem_append_left _ hp)) hr
    have hsettled : Settled rooted (pieces.foldl (push rooted) []) := Path.settled_foldl _ trivial
    rw [List.foldl_append, List.foldl_cons, List.foldl_nil]
    generalize pieces.foldl (push rooted) [] = stack at hwalk hsettled ⊢
    obtain ⟨-, ⟨rfl, rfl⟩ | ⟨rfl, rfl⟩ | ⟨hhere, habove, -, rfl⟩⟩ := walk_singleton_eq_ok.mp hstep
    · exact hwalk
    · cases stack with
      | nil =>
        cases hwalk
        cases rooted with
        | true =>
          cases hstart rfl
          rfl
        | false => exact hstep
      | cons top below =>
        by_cases htop : top = ".."
        · rw [htop] at hwalk ⊢
          rw [Path.push_above_above, List.reverse_cons]
          exact walk_append_eq_ok.mpr ⟨r, hwalk, hstep⟩
        · -- The part on top is taken back, so the walk ends where it came from.
          rw [Path.push_above_cons htop]
          rw [List.reverse_cons] at hwalk
          obtain ⟨r₀, hr₀, hlast⟩ := walk_append_eq_ok.mp hwalk
          obtain ⟨-, ⟨rfl, -⟩ | ⟨hup, -⟩ | ⟨-, -, -, rfl⟩⟩ := walk_singleton_eq_ok.mp hlast
          · have hlength := congrArg List.length hsettled.1
            simp [Path.push_here] at hlength
          · exact absurd hup htop
          · rw [List.dropLast_concat]
            exact hr₀
    · rw [Path.push_other (hne part (by simp)) hhere habove, List.reverse_cons]
      exact walk_append_eq_ok.mpr ⟨r, hwalk, hstep⟩

/-! ## Components -/

theorem getLast?_render_ne {rooted : Bool} {ps : List Bytes} (h : IsClean rooted ps)
    (hps : ps ≠ []) : (render rooted ps).getLast? ≠ some Bytes.slash := by
  obtain ⟨front, last, rfl⟩ := (List.eq_nil_or_concat ps).resolve_left hps
  have hmem : last ∈ front.concat last := by simp
  have hends : ∃ pre, render rooted (front.concat last) = pre ++ last := by
    rw [List.concat_eq_append]
    by_cases hfront : front = []
    · subst hfront
      cases rooted with
      | true => exact ⟨[Bytes.slash], by simp [render, Bytes.join_singleton]⟩
      | false => exact ⟨[], by simp [render, Bytes.join_singleton]⟩
    · exact ⟨render rooted front ++ [Bytes.slash], by simp [Path.render_concat hfront]⟩
  obtain ⟨pre, hpre⟩ := hends
  rw [hpre, List.getLast?_append_of_ne_nil _ (h.ne_nil hmem)]
  exact fun hslash => h.no_slash last hmem (List.mem_of_getLast? hslash)

theorem components_render {rooted : Bool} {ps : List Bytes} (h : IsClean rooted ps) :
    components (render rooted ps) = if ps = [] then [("." : Bytes)] else ps := by
  split
  · next hps =>
    subst hps
    cases rooted <;> decide
  · next hps =>
    have hsplit :
        (Bytes.split Bytes.slash (render rooted ps)).filter (fun p => !p.isEmpty) = ps := by
      have hfilter : ps.filter (fun p => !p.isEmpty) = ps :=
        List.filter_eq_self.mpr fun p hp => by simpa using h.ne_nil hp
      cases rooted with
      | true =>
        have hrender : render true ps = [] ++ Bytes.slash :: Bytes.join "/" ps := rfl
        rw [hrender, Bytes.split_append, Bytes.split_join hps h.no_slash]
        exact hfilter
      | false =>
        have hrender : render false ps = Bytes.join "/" ps := by simp [render, hps]
        rw [hrender, Bytes.split_join hps h.no_slash, hfilter]
    rw [components, hsplit, if_neg (by simpa using getLast?_render_ne h hps)]

/-- The parts of a path, from the components that a walk follows. -/
theorem walk_parts {q : NodePath} (hstart : Path.isAbsolute dir = true → start = [])
    (h : t.walk start (components dir) = .ok q) : t.walk start (parts dir) = .ok q := by
  have hfold : ∀ (pieces stack : List Bytes),
      (pieces.filter fun p => !p.isEmpty).foldl (push (Path.isAbsolute dir)) stack =
        pieces.foldl (push (Path.isAbsolute dir)) stack := by
    intro pieces
    induction pieces with
    | nil => exact fun _ => rfl
    | cons p pieces ih =>
      intro stack
      cases p with
      | nil => exact ih stack
      | cons b p => exact ih _
  have hpieces :
      t.walk start ((Bytes.split Bytes.slash dir).filter fun p => !p.isEmpty) = .ok q := by
    rw [components] at h
    split at h
    · obtain ⟨r, hr, hstep⟩ := walk_append_eq_ok.mp h
      obtain ⟨-, ⟨-, rfl⟩ | ⟨hup, -⟩ | ⟨hhere, -⟩⟩ := walk_singleton_eq_ok.mp hstep
      · exact hr
      · exact absurd hup (by decide)
      · exact absurd rfl hhere
    · exact h
  have hwalk := walk_foldl_push hstart (fun p hp => by simpa using (List.mem_filter.mp hp).2) hpieces
  rwa [hfold] at hwalk

/-! ## Directories that stay -/

/-- A place is a directory, and so is every place above it. -/
def Reaches (t : Tree) (place : NodePath) : Prop := ∀ q, q <+: place → t.IsDirectoryAt q

theorem Reaches.isDirectoryAt (h : t.Reaches place) : t.IsDirectoryAt place :=
  h place (List.prefix_refl _)

theorem Reaches.above {q : NodePath} (h : t.Reaches place) (hq : q <+: place) : t.Reaches q :=
  fun r hr => h r (hr.trans hq)

theorem Reaches.concat (h : t.Reaches place) (hname : t.IsDirectoryAt (place ++ [name])) :
    t.Reaches (place ++ [name]) := by
  intro q hq
  rcases List.prefix_concat_iff.mp hq with rfl | hq
  · exact hname
  · exact h q hq

/-- A walk from a place that can be reached passes only such places. -/
theorem reaches_of_walk {ps : List Bytes} {q : NodePath} (hstart : t.Reaches start)
    (h : t.walk start ps = .ok q) (hq : t.IsDirectoryAt q) : t.Reaches q := by
  induction ps using List.reverseRecOn generalizing q with
  | nil =>
    cases h
    exact hstart
  | append_singleton ps part ih =>
    obtain ⟨r, hr, hstep⟩ := walk_append_eq_ok.mp h
    obtain ⟨hdir, ⟨-, rfl⟩ | ⟨-, rfl⟩ | ⟨-, -, -, rfl⟩⟩ := walk_singleton_eq_ok.mp hstep
    · exact ih hr hdir
    · exact (ih hr hdir).above (List.dropLast_prefix _)
    · exact (ih hr hdir).concat hq

/-- Another tree has every directory that can be reached. -/
structure Keeps (t t' : Tree) : Prop where
  working : t'.working = t.working
  reaches : ∀ place, t.Reaches place → t'.Reaches place

theorem Keeps.walk_eq_ok {ps : List Bytes} {q : NodePath} (h : t.Keeps t')
    (hstart : t.Reaches start) (hwalk : t.walk start ps = .ok q) : t'.walk start ps = .ok q := by
  induction ps using List.reverseRecOn generalizing q with
  | nil => exact hwalk
  | append_singleton ps part ih =>
    obtain ⟨r, hr, hstep⟩ := walk_append_eq_ok.mp hwalk
    obtain ⟨hdir, hpart⟩ := walk_singleton_eq_ok.mp hstep
    have hdir' := (h.reaches r (reaches_of_walk hstart hr hdir)).isDirectoryAt
    exact walk_append_eq_ok.mpr ⟨r, ih hr, walk_singleton_eq_ok.mpr ⟨hdir', hpart⟩⟩

/-! ## Resolving -/

def startOf (t : Tree) (path : Bytes) : NodePath :=
  if Path.isAbsolute path then [] else t.working

theorem resolve_of_fits {path : Bytes} (hnul : 0 ∉ path) (hne : path ≠ [])
    (hlength : path.length < maxPath) :
    t.resolve path = t.walk (t.startOf path) (components path) := by
  rw [resolve, if_neg (by simpa using hnul), if_neg (by simpa using hne), if_neg (by omega)]
  rfl

theorem resolve_eq_ok {path : Bytes} {q : NodePath} :
    t.resolve path = .ok q ↔ (0 ∉ path ∧ path ≠ [] ∧ path.length < maxPath) ∧
      t.walk (t.startOf path) (components path) = .ok q := by
  constructor
  · intro h
    rw [resolve] at h
    split at h
    · cases h
    split at h
    · cases h
    split at h
    · cases h
    · next hnul hne hlong =>
      exact ⟨⟨by simpa using hnul, by simpa using hne, by omega⟩, h⟩
  · rintro ⟨⟨hnul, hne, hlength⟩, h⟩
    rw [resolve_of_fits hnul hne hlength, h]

theorem reaches_startOf (hworking : t.Reaches t.working) (path : Bytes) :
    t.Reaches (t.startOf path) := by
  unfold startOf
  split
  · intro q hq
    rw [List.prefix_nil.mp hq]
    exact ⟨_, rfl⟩
  · exact hworking

/-- A path leads to a directory, from a working directory that can be reached. -/
structure Opens (t : Tree) (dir : Bytes) (place : NodePath) : Prop where
  working : t.Reaches t.working
  leads : t.resolve dir = .ok place
  isDirectoryAt : t.IsDirectoryAt place

theorem Opens.reaches (h : t.Opens dir place) : t.Reaches place :=
  reaches_of_walk (reaches_startOf h.working dir) (resolve_eq_ok.mp h.leads).2 h.isDirectoryAt

theorem Opens.keep (h : t.Opens dir place) (hkeeps : t.Keeps t') : t'.Opens dir place where
  working := hkeeps.working ▸ hkeeps.reaches _ h.working
  leads := by
    obtain ⟨hfits, hwalk⟩ := resolve_eq_ok.mp h.leads
    refine resolve_eq_ok.mpr ⟨hfits, ?_⟩
    rw [show t'.startOf dir = t.startOf dir by rw [startOf, hkeeps.working, startOf]]
    exact hkeeps.walk_eq_ok (reaches_startOf h.working dir) hwalk
  isDirectoryAt := (hkeeps.reaches place h.reaches).isDirectoryAt

theorem Opens.ne_nil (h : t.Opens dir place) : dir ≠ [] := (resolve_eq_ok.mp h.leads).1.2.1

theorem Opens.walk_parts (h : t.Opens dir place) :
    t.walk (t.startOf dir) (parts dir) = .ok place :=
  Tree.walk_parts (fun hrooted => if_pos hrooted) (resolve_eq_ok.mp h.leads).2

theorem Opens.nul_not_mem (h : t.Opens dir place) : ∀ p ∈ parts dir, 0 ∉ p :=
  fun _ hp hzero => (resolve_eq_ok.mp h.leads).1.1 (Path.mem_of_mem_parts hp 0 hzero)

theorem nul_not_mem_render {rooted : Bool} {ps : List Bytes} (h : ∀ p ∈ ps, (0 : UInt8) ∉ p) :
    0 ∉ render rooted ps := by
  have hslash : (0 : UInt8) ≠ Bytes.slash := by decide
  have hjoin : 0 ∉ Bytes.join "/" ps := by
    induction ps with
    | nil => decide
    | cons p ps ih =>
      rw [List.forall_mem_cons] at h
      cases ps with
      | nil => simpa [Bytes.join_singleton] using h.1
      | cons q ps => simpa [Bytes.join_cons_cons, h.1, hslash] using ih h.2
  unfold render
  split
  · simpa [hslash] using hjoin
  split
  · decide
  · exact hjoin

theorem startOf_render {ps : List Bytes} (h : IsClean (Path.isAbsolute dir) ps) :
    t.startOf (render (Path.isAbsolute dir) ps) = t.startOf dir := by
  rw [startOf, Path.isAbsolute_render h, startOf]

/-- A path that leads to a directory does so when it is cleaned. -/
theorem Opens.clean (h : t.Opens dir place) (hlength : (Path.clean dir).length < maxPath) :
    t.Opens (Path.clean dir) place where
  working := h.working
  leads := by
    have hclean := Path.isClean_parts dir
    rw [Path.clean_eq_render] at hlength ⊢
    rw [resolve_of_fits (nul_not_mem_render h.nul_not_mem) (Path.render_ne_nil hclean) hlength,
      startOf_render hclean, components_render hclean]
    have hwalk := h.walk_parts
    split
    · next hnil =>
      rw [hnil] at hwalk
      cases hwalk
      exact walk_singleton_eq_ok.mpr ⟨h.isDirectoryAt, .inl ⟨rfl, rfl⟩⟩
    · exact hwalk
  isDirectoryAt := h.isDirectoryAt

/-- A name is not too long for a directory. -/
def HasRoom (dir name : Bytes) : Prop :=
  (Path.join [dir, name]).length < maxPath ∧ name.length ≤ maxName

instance (dir name : Bytes) : Decidable (HasRoom dir name) := inferInstanceAs (Decidable (_ ∧ _))

/-- A name under a directory leads to the place below. -/
theorem Opens.resolve_join (h : t.Opens dir place) (hname : IsName name) :
    t.resolve (Path.join [dir, name]) =
      if HasRoom dir name then .ok (place ++ [name]) else .error .nameTooLong := by
  have hclean := (Path.isClean_parts dir).concat hname
  have hjoin := Path.join_name h.ne_nil hname
  have hnul : 0 ∉ Path.join [dir, name] := by
    rw [hjoin]
    refine nul_not_mem_render fun p hp => ?_
    rcases List.mem_append.mp hp with hp | hp
    · exact h.nul_not_mem p hp
    · rw [List.mem_singleton.mp hp]
      exact hname.no_nul
  have hne : Path.join [dir, name] ≠ [] := by
    rw [hjoin]
    exact Path.render_ne_nil hclean
  by_cases hlength : (Path.join [dir, name]).length < maxPath
  · have hwalk : t.resolve (Path.join [dir, name]) = t.walk place [name] := by
      rw [resolve_of_fits hnul hne hlength, hjoin, startOf_render hclean, components_render hclean,
        if_neg (by simp), walk_append]
      exact congrArg (· >>= _) h.walk_parts
    rw [hwalk]
    split
    · next hroom =>
      exact walk_singleton_eq_ok.mpr ⟨h.isDirectoryAt,
        .inr (.inr ⟨hname.ne_here, hname.ne_above, hroom.2, rfl⟩)⟩
    · next hroom =>
      have hlong : maxName < name.length := by
        by_contra hshort
        exact hroom ⟨hlength, by omega⟩
      obtain ⟨mode, hmode⟩ := h.isDirectoryAt
      simp [walk, hmode, hname.ne_here, hname.ne_above, hlong]
  · rw [if_neg fun hroom => hlength hroom.1, resolve, if_neg (by simpa using hnul),
      if_neg (by simpa using hne), if_pos (by omega)]

end Tree

end ScanTriage
