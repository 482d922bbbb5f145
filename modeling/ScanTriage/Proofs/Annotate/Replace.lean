import ScanTriage.Proofs.Annotate.Program
import ScanTriage.Proofs.FileSystem.Temporary

/-!
# What a run writes

The report is replaced by way of a temporary file beside it. On the way nothing
but these two changes (`Spares`), and in the end nothing but the report
(`Replaced`); if the temporary file is refused, nothing has happened. What was
written is what is read again, so it passes the verification.
-/

namespace ScanTriage

namespace Tree

open ScanTriage.Path (IsName)

variable {α β : Type} {t u : Tree} {path : Bytes} {place q : NodePath}

/-- Every tree that a program finds has one property, and its end another. -/
def Along (found : Tree → Prop) (ends : α → Tree → Prop) : FileProgram α → Tree → Prop
  | .done a, t => ends a t
  | .call c next, t => found t ∧ Along found ends (next (t.perform c).1) (t.perform c).2

section Along

variable {found : Tree → Prop} {ends : α → Tree → Prop} {ends' : β → Tree → Prop}

theorem Along.bind {p : FileProgram α} {k : α → FileProgram β} (hp : Along found ends p t)
    (hk : ∀ a u, ends a u → Along found ends' (k a) u) : Along found ends' (p >>= k) t := by
  change Along found ends' (p.bind k) t
  induction p generalizing t with
  | done a => exact hk a t hp
  | call c next ih => exact ⟨hp.1, ih _ hp.2⟩

theorem Along.run {p : FileProgram α} (hp : Along found ends p t) :
    ends (t.run p).1 (t.run p).2 := by
  induction p generalizing t with
  | done a => exact hp
  | call c next ih => exact ih _ hp.2

theorem Along.mono {found' : Tree → Prop} {ends₂ : α → Tree → Prop} {p : FileProgram α}
    (hp : Along found ends p t) (hfound : ∀ u, found u → found' u)
    (hends : ∀ a u, ends a u → ends₂ a u) : Along found' ends₂ p t := by
  induction p generalizing t with
  | done a => exact hends a t hp
  | call c next ih => exact ⟨hfound t hp.1, ih _ hp.2⟩

end Along

/-- Everything in a tree is in another one as well, except what was at one
place. -/
structure Spares (t : Tree) (q : NodePath) (u : Tree) : Prop where
  sound : u.IsSound
  keeps : t.Keeps u
  locks : u.locks = t.locks
  others : ∀ r node, r ≠ q → t.find? r = some node → u.find? r = some node

theorem Spares.refl (h : t.IsSound) (q : NodePath) : t.Spares q t where
  sound := h
  keeps := ⟨rfl, fun _ => id⟩
  locks := rfl
  others _ _ _ := id

theorem Keeps.trans {v : Tree} (h : t.Keeps u) (h' : u.Keeps v) : t.Keeps v :=
  ⟨h'.working.trans h.working, fun place hplace => h'.reaches place (h.reaches place hplace)⟩

/-- A file was given another content and is otherwise the same, and so is all
else. -/
structure Replaced (t : Tree) (q : NodePath) (data : Bytes) (mode : Nat) (u : Tree) : Prop
    extends Spares t q u where
  goal : ∃ id, u.find? q = some (.file id data mode)
  same : ∀ r, r ≠ q → u.find? r = t.find? r

/-- A tree with one file more, at a place where nothing was. -/
structure WithFile (t : Tree) (p : NodePath) (node : Node) (u : Tree) : Prop where
  sound : u.IsSound
  keeps : t.Keeps u
  locks : u.locks = t.locks
  isFile : node.isDirectory = false
  unused : t.find? p = none
  find? : ∀ r, r ≠ [] → u.find? r = if r = p then some node else t.find? r

namespace WithFile

variable {p : NodePath} {node : Node}

theorem addFile (h : t.IsSound) (hdir : t.IsDirectoryAt p.dropLast) (hunused : t.find? p = none)
    (data : Bytes) (mode : Nat) :
    t.WithFile p (.file t.serial data mode) (t.addFile p data mode).2 where
  sound := h.addFile hdir (not_isDirectoryAt_of_none hunused) data mode
  keeps := keeps_addFile (not_isDirectoryAt_of_none hunused)
  locks := rfl
  isFile := rfl
  unused := hunused
  find? _ hr := find?_addFile hr

variable (h : t.WithFile p node u)

include h

theorem ne_nil : p ≠ [] := ne_nil_of_not_isDirectoryAt (not_isDirectoryAt_of_none h.unused)

theorem find?_self : u.find? p = some node := by
  rw [h.find? p h.ne_nil, if_pos rfl]

theorem not_isDirectoryAt : ¬ u.IsDirectoryAt p := by
  rintro ⟨mode, hmode⟩
  rw [h.find?_self] at hmode
  cases hmode
  exact Bool.noConfusion h.isFile

theorem insert {node' : Node} (hfile : node'.isDirectory = false) (hid : idOf? node' = idOf? node) :
    t.WithFile p node' (u.insert p node') where
  sound := by
    refine h.sound.insert (h.sound.parents h.ne_nil h.find?_self) h.not_isDirectoryAt ?_
    rw [hid]
    exact h.sound.made h.find?_self
  keeps := h.keeps.trans (keeps_insert h.not_isDirectoryAt)
  locks := h.locks
  isFile := hfile
  unused := h.unused
  find? r hr := by
    rw [find?_insert hr]
    split
    · rfl
    · next hne => rw [h.find? r hr, if_neg hne]

theorem spares (q : NodePath) : t.Spares q u where
  sound := h.sound
  keeps := h.keeps
  locks := h.locks
  others r node' _ hnode := by
    by_cases hroot : r = []
    · rw [hroot] at hnode ⊢
      exact hnode
    · have hne : r ≠ p := by
        rintro rfl
        rw [h.unused] at hnode
        cases hnode
      rw [h.find? r hroot, if_neg hne, hnode]

end WithFile

/-- The file is put in the place of another one beside it. -/
theorem WithFile.replaced {a b data : Bytes} {id : FileId} {mode : Nat}
    (h : t.WithFile (place ++ [a]) (.file id data mode) u) (hab : a ≠ b)
    (hb : ¬ t.IsDirectoryAt (place ++ [b])) :
    t.Replaced (place ++ [b]) data mode (u.move (place ++ [a]) (place ++ [b])) := by
  have hbeside : place ++ [b] ≠ place ++ [a] := by simpa using Ne.symm hab
  have hb' : ¬ u.IsDirectoryAt (place ++ [b]) := by
    rintro ⟨mode', hmode⟩
    rw [h.find? _ (by simp), if_neg hbeside] at hmode
    exact hb ⟨mode', hmode⟩
  have hparent := h.sound.parents (by simp) h.find?_self
  rw [List.dropLast_concat] at hparent
  have hfind : ∀ r, r ≠ [] → (u.move (place ++ [a]) (place ++ [b])).find? r =
      if r = place ++ [b] then u.find? (place ++ [a])
      else if r = place ++ [a] then none else u.find? r :=
    fun r hr => h.sound.find?_move h.not_isDirectoryAt hb' hab hr
  have hsame : ∀ r, r ≠ place ++ [b] →
      (u.move (place ++ [a]) (place ++ [b])).find? r = t.find? r := by
    intro r hr
    by_cases hroot : r = []
    · rw [hroot]
      rfl
    rw [hfind r hroot, if_neg hr]
    split
    · next hsource => rw [hsource, h.unused]
    · next hsource => rw [h.find? r hroot, if_neg hsource]
  refine ⟨⟨?_, ?_, h.locks, fun r node hr hnode => (hsame r hr).trans hnode⟩, ⟨id, ?_⟩, hsame⟩
  · exact h.sound.move h.not_isDirectoryAt hb' hab hparent
  · exact h.keeps.trans (keeps_move h.not_isDirectoryAt hb')
  · rw [hfind _ (by simp), if_pos rfl, h.find?_self]

theorem Keeps.resolve (h : t.Keeps u) (hproper : t.IsProper) (hresolve : t.resolve path = .ok q) :
    u.resolve path = .ok q := by
  obtain ⟨hfits, hwalk⟩ := resolve_eq_ok.mp hresolve
  refine resolve_eq_ok.mpr ⟨hfits, ?_⟩
  rw [show u.startOf path = t.startOf path by rw [startOf, h.working, startOf]]
  exact h.walk_eq_ok (reaches_startOf hproper.working path) hwalk

end Tree

namespace Annotate

open ScanTriage.Tree (Along Spares Replaced IsCleaned)
open FileProgram (call done)

variable {t : Tree} {path : Bytes} {q : NodePath}

def modeAfter : Except FileFault FileInfo → Nat
  | .ok info => info.mode
  | .error _ => 0o644

theorem replaceFile_eq (path data : Bytes) :
    replaceFile path data =
      call (.stat path) fun info =>
      call (.writeTemporary (Path.directory path) (Path.base path ++ ".") data) fun
        | .error fault => done (.error fault)
        | .ok temporary =>
          call (.setMode temporary (modeAfter info)) fun
            | .error fault => call (.remove temporary) fun _ => done (.error fault)
            | .ok _ =>
              call (.rename temporary path) fun
                | .ok _ => done (.ok ())
                | .error fault => call (.remove temporary) fun _ => done (.error fault) := by
  refine congrArg (call _) (funext fun info => ?_)
  rcases info with fault | info
  all_goals
    refine congrArg (call _) (funext fun written => ?_)
    rcases written with fault | temporary
    · rfl
    refine congrArg (call _) (funext fun set => ?_)
    rcases set with fault | _
    · rfl
    refine congrArg (call _) (funext fun renamed => ?_)
    rcases renamed with fault | _ <;> rfl

/-- Replacing a file is refused at once, or it changes that file only. -/
theorem along_replaceFile (h : t.IsSound) (hclean : IsCleaned path)
    (hresolve : t.resolve path = .ok q) {id : FileId} {old : Bytes} {mode : Nat}
    (hfile : t.find? q = some (.file id old mode)) (data : Bytes) :
    Along (Spares t q)
      (fun answer u => (∃ fault, answer = .error fault ∧ u = t) ∨
        answer = .ok () ∧ Replaced t q data mode u) (replaceFile path data) t := by
  have hmode : modeAfter (t.statAt path) = mode := by
    rw [Tree.statAt, Tree.lookup_of_resolve hresolve, hfile]
    rfl
  obtain ⟨dir, name, place, hstands, rfl⟩ :=
    h.standsIn hclean hresolve (Tree.not_isDirectoryAt_of_file hfile)
  have hgoal := Tree.not_isDirectoryAt_of_file hfile
  have hself : t.Spares (place ++ [name]) t := .refl h _
  rw [replaceFile_eq, hstands.directory, hstands.base]
  refine ⟨hself, hself, ?_⟩
  simp only [Tree.perform]
  obtain ⟨fault, hrefused⟩ | ⟨other, hother, hne, hroom, hunused, hwritten⟩ :=
    hstands.opens.writeTemporaryAt hstands.isName data
  · rw [hrefused]
    exact .inl ⟨fault, rfl, rfl⟩
  rw [hwritten]
  -- The trees on the way: with the temporary file, and with its mode.
  have hwith := Tree.WithFile.addFile h
    (by rw [List.dropLast_concat]; exact hstands.opens.isDirectoryAt) hunused data 0o600
  generalize (t.addFile (place ++ [other]) data 0o600).2 = t₁ at hwith ⊢
  have hset : t₁.setModeAt (Path.join [dir, other]) mode =
      (.ok (), t₁.insert (place ++ [other]) (.file t.serial data mode)) := by
    rw [Tree.setModeAt,
      (hstands.opens.keep hwith.keeps).lookup_join hother hroom hwith.find?_self]
  refine ⟨hwith.spares _, ?_⟩
  simp only [Tree.perform]
  rw [hmode, hset]
  have hwith' : t.WithFile (place ++ [other]) (.file t.serial data mode)
      (t₁.insert (place ++ [other]) (.file t.serial data mode)) := hwith.insert rfl rfl
  generalize t₁.insert (place ++ [other]) (.file t.serial data mode) = t₂ at hwith' ⊢
  have hrename : t₂.renameAt (Path.join [dir, other]) path =
      (.ok (), t₂.move (place ++ [other]) (place ++ [name])) := by
    have hbeside : place ++ [name] ≠ place ++ [other] := by simpa using Ne.symm hne
    rw [hstands.join]
    refine (hstands.opens.keep hwith'.keeps).renameAt hother hstands.isName hroom hstands.hasRoom
      hwith'.find?_self (?_ : _ = some (Node.file id old mode))
    rw [hwith'.find? _ (by simp), if_neg hbeside, hfile]
  refine ⟨hwith'.spares _, ?_⟩
  simp only [Tree.perform]
  rw [hrename]
  exact .inr ⟨rfl, hwith'.replaced hne hgoal⟩

/-- A fault does not come from the verification of what was written. -/
def Harmless (fault : Fault) : Prop := ∀ detail, fault.root ≠ .integrity detail

theorem harmless_user_file (message : Bytes) (fault : FileFault) :
    Harmless (.user message fault.toFault) := fun _ => nofun

theorem harmless_draft {options : Options} {engine : Engine} {data : Bytes} {fault : Fault}
    (h : draft options engine path data = .error fault) : Harmless fault := by
  unfold draft triaged at h
  by_cases hvalid : Json.isValid data = true
  · simp only [hvalid, if_true] at h
    rcases hrun : engine.run (Finding.listOfReport? data) with stopped | ⟨report, events⟩ <;>
      simp only [hrun] at h
    · cases h
      exact fun _ => nofun
    cases hinject : inject data report with
    | error why =>
      rw [hinject] at h
      cases h
      exact fun _ => nofun
    | ok out =>
      rw [hinject] at h
      cases h
  · simp only [hvalid] at h
    cases h
    exact fun _ => nofun

/-- What a session makes of the report, if it does not fail. -/
structure Makes (options : Options) (engine : Engine) (path : Bytes) (t : Tree) (q : NodePath)
    (outcome : Outcome) (out : Bytes) (mode : Nat) : Prop where
  resolve : t.resolve path = .ok q
  file : ∃ id data, t.find? q = some (.file id data mode) ∧
    draft options engine path data = .ok (outcome.report, outcome.totalFindings, out)
  path : outcome.path = path

/-- How a session ends: with a fault and nothing changed, with the annotated
report given back and nothing changed, or with the report replaced. -/
inductive SessionEnds (options : Options) (engine : Engine) (path : Bytes) (t : Tree) :
    Result → Tree → Prop where
  | failed {fault : Fault} {events : List Event} (h : Harmless fault) :
    SessionEnds options engine path t (.error fault, events) t
  | shown {outcome : Outcome} {q : NodePath} {out : Bytes} {mode : Nat} {events : List Event}
    (hshows : options.toOutput = true) (hmakes : Makes options engine path t q outcome out mode)
    (hout : outcome.output? = some out) :
    SessionEnds options engine path t (.ok outcome, events) t
  | stored {outcome : Outcome} {q : NodePath} {out : Bytes} {mode : Nat} {events : List Event}
    {u : Tree} (hshows : options.toOutput = false)
    (hmakes : Makes options engine path t q outcome out mode) (hout : outcome.output? = none)
    (hreplaced : Replaced t q out mode u) :
    SessionEnds options engine path t (.ok outcome, events) u

theorem SessionEnds.spares {options : Options} {engine : Engine} {result : Result} {u : Tree}
    (hends : SessionEnds options engine path t result u) (h : t.IsSound) :
    t.Spares (t.goal path) u := by
  cases hends with
  | failed => exact .refl h _
  | shown => exact .refl h _
  | stored _ hmakes _ hreplaced =>
    rw [← Tree.eq_goal_of_resolve hmakes.resolve]
    exact hreplaced.toSpares

theorem along_session (h : t.IsSound) (hclean : IsCleaned path) (options : Options)
    (engine : Engine) :
    Along (Spares t (t.goal path)) (SessionEnds options engine path t)
      (session options engine path) t := by
  have hself := Spares.refl h (t.goal path)
  refine ⟨hself, ?_⟩
  simp only [Tree.perform]
  cases hread : t.readAt path with
  | error fault => exact .failed (harmless_user_file _ fault)
  | ok data =>
    obtain ⟨q, id, mode, hresolve, hfile⟩ := Tree.readAt_eq_ok.mp hread
    dsimp only [proceed]
    cases hdraft : draft options engine path data with
    | error fault => exact .failed (harmless_draft hdraft)
    | ok result =>
      obtain ⟨report, total, out⟩ := result
      dsimp only
      by_cases hshows : options.toOutput = true
      · rw [if_pos hshows]
        exact .shown hshows ⟨hresolve, ⟨id, data, hfile, hdraft⟩, rfl⟩ rfl
      rw [if_neg hshows]
      have hq := Tree.eq_goal_of_resolve hresolve
      rw [← hq]
      refine (along_replaceFile h hclean hresolve hfile out).bind fun answer u hends => ?_
      rcases hends with ⟨fault, rfl, rfl⟩ | ⟨rfl, hreplaced⟩
      · exact .failed (harmless_user_file _ fault)
      -- What was written is read again.
      obtain ⟨id', hfile'⟩ := hreplaced.goal
      have hreread : u.readAt path = .ok out :=
        Tree.readAt_eq_ok.mpr ⟨q, id', mode, hreplaced.keeps.resolve h.toIsProper hresolve, hfile'⟩
      refine ⟨hreplaced.toSpares, ?_⟩
      simp only [Tree.perform]
      rw [hreread]
      dsimp only
      rw [verify_draft hdraft]
      exact .stored (Bool.eq_false_iff.mpr hshows) ⟨hresolve, ⟨id, data, hfile, hdraft⟩, rfl⟩ rfl
        hreplaced

end Annotate

end ScanTriage
