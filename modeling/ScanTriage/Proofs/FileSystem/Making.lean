import ScanTriage.Proofs.FileSystem.Sound

/-!
# Making directories

However programs that make one directory are interleaved, the directories on
the way to it come into being one after the other: the tree is always the first
one with some front of the way paved (`makeDirectoryAt_pave`). Once the
directory is there, nothing is made any more (`makeDirectoryAt_of_isDirectory`),
and the paved tree is the one that a single program leaves
(`run_makeDirectoriesWith_eq_pave`). What can be made and was not there before was
missing, and not something else (`eq_or_lookup_of_made`).
-/

namespace ScanTriage

/-! ## Commands that a program uses -/

namespace FileProgram

variable {α β : Type}

theorem bind_assoc {γ : Type} (p : FileProgram α) (f : α → FileProgram β)
    (g : β → FileProgram γ) : (p.bind f).bind g = p.bind fun a => (f a).bind g := by
  induction p with
  | done a => rfl
  | call c next ih => exact congrArg (call c) (funext ih)

/-- Every command that a program can come to has a property. -/
def Uses (P : FileCommand → Prop) : FileProgram α → Prop
  | done _ => True
  | call c next => P c ∧ ∀ answer, (next answer).Uses P

theorem Uses.bind {P : FileCommand → Prop} {p : FileProgram α} {k : α → FileProgram β}
    (hp : p.Uses P) (hk : ∀ a, (k a).Uses P) : (p >>= k).Uses P := by
  change (p.bind k).Uses P
  induction p with
  | done a => exact hk a
  | call c next ih => exact ⟨hp.1, fun answer => ih answer (hp.2 answer)⟩

theorem Uses.task_bind {P : FileCommand → Prop} {x : FileTask α} {f : α → FileTask β}
    (hx : Uses P x) (hf : ∀ a, Uses P (f a)) : Uses P (x >>= f : FileTask β) := by
  refine Uses.bind hx fun answer => ?_
  rcases answer with fault | a
  · trivial
  · exact hf a

theorem Uses.orTell {P : FileCommand → Prop} {p : FileProgram (Except FileFault α)}
    (message : Bytes) (hp : Uses P p) : Uses P (FileTask.orTell message p) := by
  refine Uses.bind hp fun answer => ?_
  rcases answer with fault | a <;> trivial

def makeLast (path : Bytes) : FileProgram (Except FileFault Unit) :=
  call (.makeDirectory path) fun
    | .ok _ => done (.ok ())
    | .error fault =>
      call (.stat path) fun
        | .ok info => done (if info.isDirectory then .ok () else .error fault)
        | .error _ => done (.error fault)

/-- Makes a directory after those above it. -/
def makeNext (path : Bytes) : Except FileFault Unit → FileProgram (Except FileFault Unit)
  | .error fault => done (.error fault)
  | .ok _ => makeLast path

theorem makeLast_eq (path : Bytes) :
    makeLast path = (do
      match ← perform (.makeDirectory path) with
      | .ok _ => done (.ok ())
      | .error fault => done (if ← isDirectory path then .ok () else .error fault)) := by
  refine congrArg (call _) (funext fun made => ?_)
  rcases made with fault | _
  · refine congrArg (call _) (funext fun info => ?_)
    rcases info with _ | info <;> rfl
  · rfl

theorem makeDirectoriesWith_succ (fuel : Nat) (path : Bytes) :
    makeDirectoriesWith (fuel + 1) path =
      call (.stat path) fun
        | .ok info =>
          done (if info.isDirectory then .ok () else .error ⟨"mkdir", path, .notDirectory⟩)
        | .error _ =>
          if (Path.above path).isEmpty then makeLast path
          else makeDirectoriesWith fuel (Path.above path) >>= makeNext path := by
  rw [makeDirectoriesWith]
  refine congrArg (call _) (funext fun answer => ?_)
  rcases answer with fault | info
  · change (if (Path.above path).isEmpty then _ else _) = _
    split
    · exact (makeLast_eq path).symm
    · refine congrArg (bind (makeDirectoriesWith fuel (Path.above path))) (funext fun made => ?_)
      rcases made with fault | _
      · rfl
      · exact (makeLast_eq path).symm
  · rfl

end FileProgram

namespace Tree

open ScanTriage.Path (pieces trimmed above)

variable {t t' : Tree} {dir path : Bytes} {start place q : NodePath}

/-- A path is on the way to a directory. -/
structure IsOnWay (dir path : Bytes) : Prop where
  isAbsolute : Path.isAbsolute path = Path.isAbsolute dir
  pieces : pieces path <+: pieces dir

theorem IsOnWay.refl (dir : Bytes) : IsOnWay dir dir := ⟨rfl, List.prefix_refl _⟩

theorem IsOnWay.above (h : IsOnWay dir path) (hne : above path ≠ []) :
    IsOnWay dir (above path) := by
  obtain ⟨last, hpieces⟩ := Path.pieces_eq_above (Path.trimmed_ne_nil hne)
  refine ⟨(Path.isAbsolute_above hne).trans h.isAbsolute, ?_⟩
  exact (hpieces ▸ List.prefix_append ..).trans h.pieces

theorem IsOnWay.startOf (h : IsOnWay dir path) (t : Tree) : t.startOf path = t.startOf dir := by
  rw [Tree.startOf, h.isAbsolute, Tree.startOf]

/-- The commands that make a directory. -/
def IsMaking (dir : Bytes) : FileCommand → Prop
  | .stat path => IsOnWay dir path
  | .makeDirectory path => IsOnWay dir path
  | _ => False

theorem isMaking_makeLast (h : IsOnWay dir path) :
    (FileProgram.makeLast path).Uses (IsMaking dir) := by
  refine ⟨h, fun made => ?_⟩
  rcases made with fault | _
  · refine ⟨h, fun info => ?_⟩
    rcases info with _ | info <;> trivial
  · trivial

theorem isMaking_makeDirectoriesWith (fuel : Nat) (h : IsOnWay dir path) :
    (FileProgram.makeDirectoriesWith fuel path).Uses (IsMaking dir) := by
  induction fuel generalizing path with
  | zero => trivial
  | succ fuel ih =>
    rw [FileProgram.makeDirectoriesWith_succ]
    refine ⟨h, fun answer => ?_⟩
    rcases answer with fault | info
    · dsimp only
      split
      · exact isMaking_makeLast h
      · next hne =>
        refine (ih (h.above (by simpa using hne))).bind fun made => ?_
        rcases made with fault | _
        · trivial
        · exact isMaking_makeLast h
    · trivial

/-! ## A paved way -/

/-- A directory is made where nothing is. -/
def settle (t : Tree) (place : NodePath) : Tree :=
  match t.find? place with
  | none => t.insert place (.directory 0o755)
  | some _ => t

/-- Directories are made at every place on a way where nothing is. -/
def pave (t : Tree) (start : NodePath) : List Bytes → Tree
  | [] => t
  | part :: parts => (t.settle (onward start part)).pave (onward start part) parts

theorem pave_append (t : Tree) (start : NodePath) (a b : List Bytes) :
    t.pave start (a ++ b) = (t.pave start a).pave (ahead start a) b := by
  induction a generalizing t start with
  | nil => rfl
  | cons part a ih => exact ih (t.settle (onward start part)) (onward start part)

theorem pave_concat (t : Tree) (start : NodePath) (a : List Bytes) (part : Bytes) :
    t.pave start (a ++ [part]) = (t.pave start a).settle (ahead start (a ++ [part])) := by
  rw [pave_append, ahead_concat]
  rfl

theorem settle_of_some {node : Node} (h : t.find? place = some node) : t.settle place = t := by
  rw [settle, h]

theorem settle_of_none (h : t.find? place = none) :
    t.settle place = t.insert place (.directory 0o755) := by
  rw [settle, h]

/-- What is there stays, and only directories on the way are new. -/
theorem find?_pave (t : Tree) (start : NodePath) (ps : List Bytes) (q : NodePath) :
    (t.pave start ps).find? q = t.find? q ∨
      t.find? q = none ∧ (t.pave start ps).find? q = some (.directory 0o755) ∧
        ∃ front, front <+: ps ∧ q = ahead start front := by
  induction ps using List.reverseRecOn with
  | nil => exact .inl rfl
  | append_singleton ps part ih =>
    rw [pave_concat]
    cases hplace : (t.pave start ps).find? (ahead start (ps ++ [part])) with
    | some node =>
      rw [settle_of_some hplace]
      refine ih.imp_right fun ⟨hnone, hdir, front, hfront, hq⟩ => ?_
      exact ⟨hnone, hdir, front, hfront.trans (List.prefix_append ..), hq⟩
    | none =>
      rw [settle_of_none hplace]
      have hnil := ne_nil_of_not_isDirectoryAt (not_isDirectoryAt_of_none hplace)
      by_cases hq : q = ahead start (ps ++ [part])
      · have hbefore : t.find? q = none := by
          rcases ih with hsame | ⟨hnone, -⟩
          · rw [← hsame, hq, hplace]
          · exact hnone
        rw [hq] at hbefore ⊢
        rw [find?_insert hnil, if_pos rfl]
        exact .inr ⟨hbefore, rfl, _, List.prefix_refl _, rfl⟩
      · have hother : ((t.pave start ps).insert (ahead start (ps ++ [part])) (.directory 0o755)).find? q
            = (t.pave start ps).find? q := by
          by_cases hroot : q = []
          · rw [hroot]
            rfl
          · rw [find?_insert hroot, if_neg hq]
        rw [hother]
        refine ih.imp_right fun ⟨hnone, hdir, front, hfront, hq⟩ => ?_
        exact ⟨hnone, hdir, front, hfront.trans (List.prefix_append ..), hq⟩

theorem find?_pave_of_some {node : Node} (h : t.find? q = some node) (start : NodePath)
    (ps : List Bytes) : (t.pave start ps).find? q = some node := by
  rcases t.find?_pave start ps q with hsame | ⟨hnone, -⟩
  · rw [hsame, h]
  · rw [h] at hnone
    cases hnone

/-- Something is at every place that was paved. -/
theorem find?_pave_ne_none {front ps : List Bytes} (hfront : front <+: ps) (hne : front ≠ []) :
    (t.pave start ps).find? (ahead start front) ≠ none := by
  obtain ⟨rest, rfl⟩ := hfront
  rcases List.eq_nil_or_concat front with hnil | ⟨front, part, rfl⟩
  · exact absurd hnil hne
  rw [List.concat_eq_append]
  rw [pave_append]
  suffices hplaced : ∃ node, (t.pave start (front ++ [part])).find? (ahead start (front ++ [part])) =
      some node by
    obtain ⟨node, hnode⟩ := hplaced
    rw [find?_pave_of_some hnode]
    exact Option.some_ne_none node
  rw [pave_concat]
  cases hplace : (t.pave start front).find? (ahead start (front ++ [part])) with
  | some node => exact ⟨node, by rw [settle_of_some hplace, hplace]⟩
  | none =>
    have hnil := ne_nil_of_not_isDirectoryAt (not_isDirectoryAt_of_none hplace)
    exact ⟨_, by rw [settle_of_none hplace, find?_insert hnil, if_pos rfl]⟩

/-- A way that is there is not paved again. -/
theorem pave_eq_self {ps : List Bytes}
    (h : ∀ front, front <+: ps → t.IsDirectoryAt (ahead start front)) : t.pave start ps = t := by
  induction ps using List.reverseRecOn with
  | nil => rfl
  | append_singleton ps part ih =>
    obtain ⟨mode, hmode⟩ := h _ (List.prefix_refl _)
    rw [pave_concat, ih fun front hfront => h front (hfront.trans (List.prefix_append ..)),
      settle_of_some hmode]

/-- The parts of a tree that paving leaves alone. -/
theorem pave_fields (t : Tree) (start : NodePath) (ps : List Bytes) :
    (t.pave start ps).working = t.working ∧ (t.pave start ps).serial = t.serial ∧
      (t.pave start ps).locks = t.locks := by
  induction ps generalizing t start with
  | nil => exact ⟨rfl, rfl, rfl⟩
  | cons part ps ih =>
    have hsettle : (t.settle (onward start part)).working = t.working ∧
        (t.settle (onward start part)).serial = t.serial ∧
        (t.settle (onward start part)).locks = t.locks := by
      unfold settle
      split <;> exact ⟨rfl, rfl, rfl⟩
    obtain ⟨hworking, hserial, hlocks⟩ := ih (t.settle (onward start part)) (onward start part)
    exact ⟨hworking.trans hsettle.1, hserial.trans hsettle.2.1, hlocks.trans hsettle.2.2⟩

theorem startOf_pave (t : Tree) (start : NodePath) (ps : List Bytes) (path : Bytes) :
    (t.pave start ps).startOf path = t.startOf path := by
  rw [startOf, (pave_fields ..).1, startOf]

/-! ## One command -/

theorem components_trimmed (path : Bytes) : components (trimmed path) = pieces path := by
  rw [components, if_neg (by simpa using Path.getLast?_trimmed path)]
  exact Path.pieces_trimmed path

theorem pieces_prefix_components (path : Bytes) : pieces path <+: components path := by
  rw [components]
  split
  · exact List.prefix_append ..
  · exact List.prefix_refl _

theorem resolve_trimmed (h : t.resolve (trimmed path) = .ok place) :
    place = ahead (t.startOf path) (pieces path) ∧ pieces path ≠ [] ∧
      ∀ front, front <+: pieces path → front ≠ pieces path →
        t.IsDirectoryAt (ahead (t.startOf path) front) := by
  obtain ⟨hplace, hfits, hdirs⟩ := resolve_eq_ok_iff.mp h
  have hstart : t.startOf (trimmed path) = t.startOf path := by
    rw [startOf, Path.isAbsolute_trimmed hfits.ne_nil, startOf]
  rw [goal, hstart, components_trimmed] at hplace
  rw [hstart, components_trimmed] at hdirs
  obtain ⟨last, hpieces⟩ := Path.pieces_eq_above hfits.ne_nil
  exact ⟨hplace, by simp [hpieces], hdirs⟩

/-- Where a directory is, nothing on the way to it can be made. -/
theorem makeDirectoryAt_of_isDirectory (h : t.isDirectory dir = true) (hpath : IsOnWay dir path) :
    (t.makeDirectoryAt path).2 = t := by
  obtain ⟨fault, hrefused⟩ | ⟨place, -, hresolve, hnone, -⟩ := makeDirectoryAt_cases t path
  · rw [hrefused]
  · obtain ⟨rfl, -, -⟩ := resolve_trimmed hresolve
    have hdir := (isDirectory_eq_true_iff.mp h).2 _
      (hpath.pieces.trans (pieces_prefix_components dir))
    rw [← hpath.startOf] at hdir
    exact absurd hdir (not_isDirectoryAt_of_none hnone)

/-- Making a directory on a way paves the way a step further, or does nothing. -/
theorem makeDirectoryAt_pave {ps : List Bytes} (hps : ps <+: pieces dir) (hpath : IsOnWay dir path) :
    ∃ ps', ps' <+: pieces dir ∧
      ((t.pave (t.startOf dir) ps).makeDirectoryAt path).2 = t.pave (t.startOf dir) ps' := by
  generalize hpaved : t.pave (t.startOf dir) ps = paved
  obtain ⟨fault, hrefused⟩ | ⟨place, -, hresolve, hnone, hmade⟩ := makeDirectoryAt_cases paved path
  · exact ⟨ps, hps, by rw [hrefused, hpaved]⟩
  have hstart : paved.startOf path = t.startOf dir := by
    rw [hpath.startOf, ← hpaved, startOf_pave]
  obtain ⟨rfl, hne, hdirs⟩ := resolve_trimmed hresolve
  rw [hstart] at hnone hdirs hmade
  refine ⟨pieces path, hpath.pieces, ?_⟩
  rw [hmade]
  -- The way was not paved as far as this, so it was paved right up to it.
  have hshort : ps <+: pieces path ∧ ps ≠ pieces path := by
    rcases List.prefix_or_prefix_of_prefix hps hpath.pieces with hle | hle
    · refine ⟨hle, fun heq => ?_⟩
      rw [← hpaved, heq] at hnone
      exact find?_pave_ne_none (List.prefix_refl _) hne hnone
    · rw [← hpaved] at hnone
      exact absurd hnone (find?_pave_ne_none hle hne)
  obtain ⟨⟨rest, hrest⟩, hneq⟩ := hshort
  obtain ⟨front, last, hlast⟩ := (List.eq_nil_or_concat rest).resolve_left (by
    rintro rfl
    exact hneq (by simpa using hrest))
  rw [List.concat_eq_append] at hlast
  have hpieces : pieces path = (ps ++ front) ++ [last] := by rw [← hrest, hlast, List.append_assoc]
  have hfront : (t.pave (t.startOf dir) (ps ++ front)) = paved := by
    rw [pave_append, hpaved]
    refine pave_eq_self fun mid hmid => ?_
    rw [← ahead_append]
    refine hdirs (ps ++ mid) ?_ fun heq => ?_
    · rw [hpieces]
      exact (List.prefix_append_right_inj ps |>.mpr hmid).trans (List.prefix_append ..)
    · have hlength := congrArg List.length heq
      have hle := hmid.length_le
      rw [hpieces] at hlength
      simp only [List.length_append, List.length_singleton] at hlength
      omega
  rw [hpieces] at hnone ⊢
  rw [pave_concat, hfront, settle_of_none hnone]

theorem IsSound.perform_of_isMaking (h : t.IsSound) {c : FileCommand} (hc : IsMaking dir c) :
    (t.perform c).2.IsSound := by
  cases c with
  | stat path => exact h
  | makeDirectory path => exact h.makeDirectoryAt path
  | _ => exact hc.elim

theorem perform_of_isMaking_of_isDirectory (h : t.isDirectory dir = true) {c : FileCommand}
    (hc : IsMaking dir c) : (t.perform c).2 = t := by
  cases c with
  | stat path => rfl
  | makeDirectory path => exact makeDirectoryAt_of_isDirectory h hc
  | _ => exact hc.elim

/-- Some front of the way to a directory is paved. -/
def IsPaved (t : Tree) (dir : Bytes) (t' : Tree) : Prop :=
  ∃ ps, ps <+: pieces dir ∧ t' = t.pave (t.startOf dir) ps

theorem IsPaved.perform (h : t.IsPaved dir t') {c : FileCommand} (hc : IsMaking dir c) :
    t.IsPaved dir (t'.perform c).2 := by
  obtain ⟨ps, hps, rfl⟩ := h
  cases c with
  | stat path => exact ⟨ps, hps, rfl⟩
  | makeDirectory path => exact makeDirectoryAt_pave hps hc
  | _ => exact hc.elim

/-- A paved way that leads to a directory is paved to its end. -/
theorem IsPaved.eq_pave (h : t.IsPaved dir t') (hdir : t'.isDirectory dir = true) :
    t' = t.pave (t.startOf dir) (pieces dir) := by
  obtain ⟨ps, ⟨rest, hrest⟩, rfl⟩ := h
  have hdirs := (isDirectory_eq_true_iff.mp hdir).2
  rw [← hrest, pave_append]
  refine (pave_eq_self fun front hfront => ?_).symm
  rw [← ahead_append]
  rw [startOf_pave] at hdirs
  refine hdirs (ps ++ front) ((?_ : _ <+: pieces dir).trans (pieces_prefix_components dir))
  rw [← hrest]
  exact (List.prefix_append_right_inj ps).mpr hfront

/-- Nothing is paved where a directory is. -/
theorem IsPaved.eq_self (h : t.IsPaved dir t') (hdir : t.isDirectory dir = true) : t' = t := by
  obtain ⟨ps, hps, rfl⟩ := h
  refine pave_eq_self fun front hfront => (isDirectory_eq_true_iff.mp hdir).2 front ?_
  exact hfront.trans (hps.trans (pieces_prefix_components dir))

/-! ## Whole programs -/

/-- An answer shows that a directory is there. -/
def Shows (dir : Bytes) : (c : FileCommand) → c.Answer → Prop
  | .stat path, .ok info => path = dir ∧ info.isDirectory = true
  | .makeDirectory path, .ok _ => path = dir
  | _, _ => False

/-- A program does not claim that a directory is there unless it was shown by
the last answer. -/
def Vouches (dir : Bytes) : FileProgram (Except FileFault Unit) → Prop
  | .done _ => True
  | .call c next => ∀ answer,
    (next answer = .done (.ok ()) → Shows dir c answer) ∧ Vouches dir (next answer)

theorem isDirectory_of_shows (h : t.IsSound) {c : FileCommand}
    (hshows : Shows dir c (t.perform c).1) : (t.perform c).2.isDirectory dir = true := by
  cases c with
  | stat path =>
    simp only [perform] at hshows ⊢
    unfold isDirectory
    cases hstat : t.statAt path with
    | error fault =>
      rw [hstat] at hshows
      exact hshows.elim
    | ok info =>
      rw [hstat] at hshows
      obtain ⟨rfl, hinfo⟩ := hshows
      rw [hstat]
      exact hinfo
  | makeDirectory path =>
    simp only [perform] at hshows ⊢
    obtain ⟨fault, hrefused⟩ | ⟨place, hlength, -, -, hmade⟩ := makeDirectoryAt_cases t path
    · rw [hrefused] at hshows
      exact hshows.elim
    · rw [hmade] at hshows ⊢
      cases hshows
      exact isDirectory_makeDirectoryAt h.toIsProper hlength hmade
  | _ => exact hshows.elim

theorem vouches_makeLast (dir : Bytes) : Vouches dir (FileProgram.makeLast dir) := by
  intro made
  rcases made with fault | _
  · refine ⟨nofun, fun info => ?_⟩
    rcases info with _ | info
    · exact ⟨nofun, trivial⟩
    · refine ⟨fun hdone => ⟨rfl, ?_⟩, trivial⟩
      by_contra hnot
      simp [hnot] at hdone
  · exact ⟨fun _ => rfl, trivial⟩

theorem bind_ne_done {α β : Type} {p : FileProgram α} {k : α → FileProgram β} {b : β}
    (hk : ∀ a, k a ≠ .done b) : p.bind k ≠ .done b := by
  cases p with
  | done a => exact hk a
  | call c next => exact nofun

theorem vouches_bind {p : FileProgram (Except FileFault Unit)}
    {k : Except FileFault Unit → FileProgram (Except FileFault Unit)}
    (hk : ∀ r, k r ≠ .done (.ok ())) (hvouches : ∀ r, Vouches dir (k r)) :
    Vouches dir (p.bind k) := by
  induction p with
  | done r => exact hvouches r
  | call c next ih => exact fun answer => ⟨fun hdone => absurd hdone (bind_ne_done hk), ih answer⟩

theorem vouches_makeDirectoriesWith (fuel : Nat) (dir : Bytes) :
    Vouches dir (.makeDirectoriesWith (fuel + 1) dir) := by
  rw [FileProgram.makeDirectoriesWith_succ]
  intro answer
  rcases answer with fault | info
  · dsimp only
    split
    · exact ⟨nofun, vouches_makeLast dir⟩
    · have hk : ∀ r, FileProgram.makeNext dir r ≠ .done (.ok ()) := by
        rintro (fault | _) <;> exact nofun
      refine ⟨fun hdone => absurd hdone (bind_ne_done hk), vouches_bind hk fun r => ?_⟩
      rcases r with fault | _
      · trivial
      · exact vouches_makeLast dir
  · refine ⟨fun hdone => ⟨rfl, ?_⟩, trivial⟩
    by_contra hnot
    simp [hnot] at hdone

/-- A program that makes a directory paves the way, when it runs alone. -/
theorem isPaved_run (hpaved : t.IsPaved dir t') {p : FileProgram (Except FileFault Unit)}
    (huses : p.Uses (IsMaking dir)) : t.IsPaved dir (t'.run p).2 := by
  induction p generalizing t' with
  | done r => exact hpaved
  | call c next ih => exact ih _ (hpaved.perform huses.1) (huses.2 _)

theorem isPaved_makeDirectories (t : Tree) (dir : Bytes) :
    t.IsPaved dir (t.run (.makeDirectories dir)).2 :=
  isPaved_run ⟨[], List.nil_prefix, rfl⟩ (isMaking_makeDirectoriesWith _ (.refl dir))

/-- It leaves a sound tree, with the directory if it succeeds. -/
theorem run_of_isMaking (h : t.IsSound) {p : FileProgram (Except FileFault Unit)}
    (huses : p.Uses (IsMaking dir)) (hvouches : Vouches dir p)
    (hdone : p = .done (.ok ()) → t.isDirectory dir = true) :
    (t.run p).2.IsSound ∧ ((t.run p).1 = .ok () → (t.run p).2.isDirectory dir = true) := by
  induction p generalizing t with
  | done r => exact ⟨h, fun hr => hdone (congrArg _ hr)⟩
  | call c next ih =>
    refine ih (t.perform c).1 (h.perform_of_isMaking huses.1) (huses.2 _) (hvouches _).2
      fun hnext => ?_
    exact isDirectory_of_shows h ((hvouches _).1 hnext)

theorem IsSound.run_makeDirectories (h : t.IsSound) (dir : Bytes) :
    (t.run (.makeDirectories dir)).2.IsSound ∧ t.IsPaved dir (t.run (.makeDirectories dir)).2 ∧
      ((t.run (.makeDirectories dir)).1 = .ok () →
        (t.run (.makeDirectories dir)).2.isDirectory dir = true) := by
  obtain ⟨hsound, hdir⟩ := run_of_isMaking h (isMaking_makeDirectoriesWith _ (.refl dir))
    (vouches_makeDirectoriesWith dir.length dir) fun hdone => by
      rw [FileProgram.makeDirectoriesWith_succ] at hdone
      cases hdone
  exact ⟨hsound, t.isPaved_makeDirectories dir, hdir⟩

/-- Fronts of the way have what the whole paved way has there. -/
theorem isDirectoryAt_pave_front {ps : List Bytes} (part : Bytes) (hstart : t.IsDirectoryAt start)
    {front : List Bytes} (hfront : front <+: ps)
    (hdir : (t.pave start (ps ++ [part])).IsDirectoryAt (ahead start front)) :
    (t.pave start ps).IsDirectoryAt (ahead start front) := by
  obtain ⟨mode, hmode⟩ := hdir
  have hsome : (t.pave start ps).find? (ahead start front) ≠ none := by
    by_cases hnil : front = []
    · obtain ⟨mode', hmode'⟩ := hstart
      rw [hnil]
      change (t.pave start ps).find? start ≠ none
      rw [find?_pave_of_some hmode']
      exact Option.some_ne_none _
    · exact find?_pave_ne_none hfront hnil
  obtain ⟨node, hnode⟩ := Option.ne_none_iff_exists'.mp hsome
  rw [pave_append, find?_pave_of_some hnode] at hmode
  exact ⟨mode, hnode.trans hmode⟩

theorem Fits.above (h : Fits path) (hne : Path.above path ≠ []) : Fits (Path.above path) where
  no_nul hnul := h.no_nul (Path.mem_of_mem_above hnul)
  ne_nil := hne
  length := (Path.length_above_lt hne).trans h.length
  components p hp := by
    obtain ⟨last, hpieces⟩ := Path.pieces_eq_above (Path.trimmed_ne_nil hne)
    have hmem : p ∈ pieces (Path.above path) ∨ p = "." := by
      rw [Tree.components] at hp
      split at hp
      · exact (List.mem_append.mp hp).imp_right List.mem_singleton.mp
      · exact .inl hp
    rcases hmem with hmem | rfl
    · refine h.components p ((pieces_prefix_components path).subset ?_)
      rw [hpieces]
      exact List.mem_append_left _ hmem
    · decide

theorem Fits.trimmed (h : Fits path) (hne : trimmed path ≠ []) : Fits (trimmed path) where
  no_nul hnul := h.no_nul (Path.mem_of_mem_trimmed hnul)
  ne_nil := hne
  length := (Path.length_trimmed_le path).trans_lt h.length
  components p hp := by
    rw [components_trimmed] at hp
    exact h.components p ((pieces_prefix_components path).subset hp)

theorem statAt_eq_ok {info : FileInfo} (h : t.statAt path = .ok info) :
    ∃ place node, t.resolve path = .ok place ∧ t.find? place = some node ∧
      info.isDirectory = node.isDirectory := by
  unfold statAt at h
  cases hresolve : t.resolve path with
  | error reason =>
    rw [lookup_of_error hresolve] at h
    cases h
  | ok place =>
    rw [lookup_of_resolve hresolve] at h
    rcases hnode : t.find? place with _ | ⟨id, data, mode⟩ | mode <;> rw [hnode] at h <;> cases h
    · exact ⟨place, _, rfl, hnode, rfl⟩
    · exact ⟨place, _, rfl, hnode, rfl⟩

/-- If the paved way leads to a directory, the last piece of it can be made. -/
theorem run_makeLast_eq_settle {front : List Bytes} {last : Bytes}
    (hpieces : pieces path = front ++ [last]) (hfits : Fits path)
    (hdirs : ∀ mid, mid <+: front → t.IsDirectoryAt (ahead (t.startOf path) mid))
    (hdir : (t.settle (ahead (t.startOf path) (pieces path))).isDirectory path = true) :
    t.run (.makeLast path) = (.ok (), t.settle (ahead (t.startOf path) (pieces path))) := by
  have hne : trimmed path ≠ [] := by
    intro hnil
    rw [Path.pieces_eq_nil hnil] at hpieces
    simp at hpieces
  have hresolve : t.resolve (trimmed path) = .ok (ahead (t.startOf path) (pieces path)) := by
    have hstart : t.startOf (trimmed path) = t.startOf path := by
      rw [startOf, Path.isAbsolute_trimmed hne, startOf]
    refine resolve_eq_ok_iff.mpr ⟨?_, hfits.trimmed hne, fun mid hmid hproper => ?_⟩
    · rw [goal, hstart, components_trimmed]
    · rw [components_trimmed, hpieces] at hmid hproper
      rw [hstart]
      exact hdirs mid ((List.prefix_concat_iff.mp hmid).resolve_left hproper)
  have hshort : ¬ maxPath ≤ path.length := by
    have hlength := hfits.length
    omega
  have htrimmed : (path.reverse.dropWhile (· == Bytes.slash)).reverse = trimmed path := rfl
  rw [FileProgram.makeLast_eq]
  refine (run_makeLast t path).trans ?_
  rw [makeLastAt, makeDirectoryAt, if_neg hshort, htrimmed, hresolve]
  cases hplace : t.find? (ahead (t.startOf path) (pieces path)) with
  | none =>
    rw [settle_of_none hplace]
    simp only [hplace]
  | some node =>
    rw [settle_of_some hplace] at hdir ⊢
    simp [hplace, refuse, hdir]

/-- A single program makes the directory whenever the paved way leads to one. -/
theorem run_makeDirectoriesWith_eq_pave (h : t.IsSound) {fuel : Nat} (hfuel : path.length < fuel)
    (hdir : (t.pave (t.startOf path) (pieces path)).isDirectory path = true) :
    t.run (.makeDirectoriesWith fuel path) = (.ok (), t.pave (t.startOf path) (pieces path)) := by
  induction fuel generalizing path with
  | zero => omega
  | succ fuel ih =>
    have hstart := (reaches_startOf h.working path).isDirectoryAt
    obtain ⟨hfits, hdirs⟩ := isDirectory_eq_true_iff.mp hdir
    rw [startOf_pave] at hdirs
    rw [FileProgram.makeDirectoriesWith_succ, run]
    simp only [perform]
    cases hstat : t.statAt path with
    | ok info =>
      obtain ⟨place, node, hresolve, hnode, hinfo⟩ := statAt_eq_ok hstat
      have hself : info.isDirectory = true := by
        obtain ⟨mode, hmode⟩ := hdirs _ (List.prefix_refl _)
        rw [eq_goal_of_resolve hresolve] at hnode
        rw [goal] at hnode
        rw [find?_pave_of_some hnode] at hmode
        cases hmode
        exact hinfo
      have hpaved : t = t.pave (t.startOf path) (pieces path) := by
        refine IsPaved.eq_pave ⟨[], List.nil_prefix, rfl⟩ ?_
        rw [isDirectory, hstat]
        exact hself
      simp only [hself, if_true, run]
      exact congrArg (Prod.mk _) hpaved
    | error fault =>
      have htrimmed : trimmed path ≠ [] := by
        intro hnil
        rw [Path.pieces_eq_nil hnil, pave, isDirectory, hstat] at hdir
        cases hdir
      obtain ⟨last, hpieces⟩ := Path.pieces_eq_above htrimmed
      have hfront : ∀ mid, mid <+: pieces (above path) →
          (t.pave (t.startOf path) (pieces (above path))).IsDirectoryAt
            (ahead (t.startOf path) mid) := by
        intro mid hmid
        refine isDirectoryAt_pave_front last hstart hmid ?_
        rw [← hpieces]
        refine hdirs mid (List.IsPrefix.trans ?_ (pieces_prefix_components path))
        rw [hpieces]
        exact hmid.trans (List.prefix_append ..)
      have hlast : (t.pave (t.startOf path) (pieces (above path))).run (.makeLast path) =
          (.ok (), t.pave (t.startOf path) (pieces path)) := by
        have hsettle : t.pave (t.startOf path) (pieces path) =
            (t.pave (t.startOf path) (pieces (above path))).settle
              (ahead (t.startOf path) (pieces path)) := by
          rw [hpieces, pave_concat]
        rw [hsettle] at hdir ⊢
        have hmake := run_makeLast_eq_settle (t := t.pave (t.startOf path) (pieces (above path)))
          hpieces hfits
        rw [startOf_pave] at hmake
        exact hmake hfront hdir
      dsimp only
      split
      · next hnil =>
        rw [List.isEmpty_iff.mp hnil] at hlast
        exact hlast
      · next hne =>
        rw [List.isEmpty_iff] at hne
        have hup : t.startOf (above path) = t.startOf path := by
          rw [startOf, Path.isAbsolute_above hne, startOf]
        have hshorter := Path.length_above_lt hne
        have habove := @ih (above path) (by omega) ?_
        · rw [run_bind_of_run habove, hup]
          exact hlast
        · rw [hup, isDirectory_eq_true_iff]
          refine ⟨hfits.above hne, fun front hfront' => ?_⟩
          rw [startOf_pave, hup]
          rw [components] at hfront'
          split at hfront'
          · rcases List.prefix_concat_iff.mp hfront' with rfl | hfront'
            · rw [ahead_concat, onward_here]
              exact hfront _ (List.prefix_refl _)
            · exact hfront front hfront'
          · exact hfront front hfront'

/-! ## What was not there before -/

/-- A walk in a tree that has more nodes stops early in the first tree only where
something is missing. -/
theorem walk_of_more (hmore : ∀ q node, t.find? q = some node → t'.find? q = some node)
    {parts : List Bytes} (h : t'.walk place parts = .ok q) :
    t.walk place parts = .ok q ∨ t.walk place parts = .error .notFound := by
  induction parts generalizing place with
  | nil => exact .inl h
  | cons part parts ih =>
    rw [walk] at h ⊢
    cases hnode : t.find? place with
    | none => exact .inr rfl
    | some node =>
      rw [hmore place node hnode] at h
      cases node with
      | file id data mode => cases h
      | directory mode =>
        dsimp only at h ⊢
        split_ifs at h ⊢
        · exact ih h
        · exact ih h
        · exact ih h

theorem IsPaved.lookup_eq (h : t.IsPaved dir t') {node : Node}
    (hlookup : t'.lookup path = .ok (place, node)) :
    t.lookup path = .ok (place, node) ∨ t.lookup path = .error .notFound := by
  obtain ⟨ps, -, rfl⟩ := h
  cases hresolve : (t.pave (t.startOf dir) ps).resolve path with
  | error reason =>
    rw [lookup_of_error hresolve] at hlookup
    cases hlookup
  | ok q =>
    obtain ⟨hfits, hwalk⟩ := resolve_eq_ok.mp hresolve
    rw [startOf_pave] at hwalk
    rw [lookup_of_resolve hresolve] at hlookup
    rcases walk_of_more (fun q node hnode => find?_pave_of_some hnode _ ps) hwalk with hq | hq
    · rw [lookup_of_resolve (resolve_eq_ok.mpr ⟨hfits, hq⟩)]
      cases hnode : t.find? q with
      | none => exact .inr rfl
      | some node' =>
        rw [find?_pave_of_some hnode] at hlookup
        exact .inl hlookup
    · rw [← resolve_of_fits hfits.1 hfits.2.1 hfits.2.2] at hq
      exact .inr (lookup_of_error hq)

/-- A directory that can be made is there already, or it is missing. -/
theorem eq_or_lookup_of_made (hmade : t.run (.makeDirectories dir) = (.ok (), t'))
    (hdir : t'.isDirectory dir = true) : t' = t ∨ t.lookup dir = .error .notFound := by
  have hpaved := t.isPaved_makeDirectories dir
  rw [hmade] at hpaved
  obtain ⟨place, hresolve, mode, hmode⟩ := isDirectory_iff.mp hdir
  have hlookup : t'.lookup dir = .ok (place, .directory mode) := by
    rw [lookup_of_resolve hresolve, hmode]
  rcases hpaved.lookup_eq hlookup with hthere | hmissing
  · have hdir : t.isDirectory dir = true := by
      rw [isDirectory, statAt, hthere]
    exact .inl (congrArg Prod.snd (hmade.symm.trans (run_makeDirectories_of_isDirectory hdir)))
  · exact .inr hmissing

end Tree

end ScanTriage
