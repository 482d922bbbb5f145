import ScanTriage.Proofs.FileSystem.Making

/-!
# Faults of the file system

A command that a tree allows may fail all the same: a file is not to be written
to, or the disk is full when some of the data is written. `Answers` tells how a
command can end and `Yields` how a program can. The run without faults is one of
these (`yields_run`). Where directories are made, a fault leaves a front of the way
to them paved (`IsSound.yields_makeDirectories`).
-/

namespace ScanTriage

namespace Tree

variable {α β : Type} {t t' : Tree} {answer : Except Fault β}

/-! ## Commands -/

/-- A fault as the answer to a command. -/
def IsFault : (c : FileCommand) → c.Answer → Prop
  | .stat _, .error _ => True
  | .read _, .error _ => True
  | .list _, .error _ => True
  | .makeDirectory _, .error _ => True
  | .append _ _ _, .error _ => True
  | .write _ _, .error _ => True
  | .writeTemporary _ _ _, .error _ => True
  | .setMode _ _, .error _ => True
  | .rename _ _, .error _ => True
  | .remove _, .error _ => True
  | .openFile _, .error _ => True
  | .create _ _, .error _ => True
  | _, _ => False

/-- A command that writes only a part of the data of another. -/
inductive CutsShort : FileCommand → FileCommand → Prop
  | append {part data : Bytes} (path : Bytes) (mode : Nat) (h : part <+: data) :
    CutsShort (.append path mode part) (.append path mode data)
  | write {part data : Bytes} (path : Bytes) (h : part <+: data) :
    CutsShort (.write path part) (.write path data)
  | writeTemporary {part data : Bytes} (directory front : Bytes) (h : part <+: data) :
    CutsShort (.writeTemporary directory front part) (.writeTemporary directory front data)

def WritesNothing : FileCommand → Prop
  | .append _ _ _ => False
  | .write _ _ => False
  | .writeTemporary _ _ _ => False
  | _ => True

theorem CutsShort.not_writesNothing {part c : FileCommand} (h : CutsShort part c) :
    ¬ WritesNothing c := by
  cases h <;> exact id

/-- How a command can end: it is carried out as the tree allows, or there is a fault
and nothing was changed, or only some of the data was written. -/
def Answers (t : Tree) (c : FileCommand) (a : c.Answer) (t' : Tree) : Prop :=
  (a, t') = t.perform c ∨
    IsFault c a ∧ (t' = t ∨ ∃ part, CutsShort part c ∧ t' = (t.perform part).2)

/-- A command that writes no data is carried out, or nothing is changed. -/
theorem Answers.cases {c : FileCommand} {a b : c.Answer} {t₁ : Tree} (h : t.Answers c a t')
    (hc : WritesNothing c) (hperform : t.perform c = (b, t₁)) :
    a = b ∧ t' = t₁ ∨ IsFault c a ∧ t' = t := by
  rcases h with h | ⟨hfault, rfl | ⟨part, hpart, -⟩⟩
  · exact .inl (Prod.mk.inj (h.trans hperform))
  · exact .inr ⟨hfault, rfl⟩
  · exact absurd hc hpart.not_writesNothing

/-! ## Programs -/

/-- A program can end with a value and leave a tree. -/
def Yields : Tree → FileProgram α → α → Tree → Prop
  | t, .done b, a, t' => a = b ∧ t' = t
  | t, .call c next, a, t' => ∃ answer t₁, t.Answers c answer t₁ ∧ Yields t₁ (next answer) a t'

theorem yields_run (p : FileProgram α) (t : Tree) : t.Yields p (t.run p).1 (t.run p).2 := by
  induction p generalizing t with
  | done a => exact ⟨rfl, rfl⟩
  | call c next ih => exact ⟨_, _, .inl rfl, ih (t.perform c).1 (t.perform c).2⟩

theorem yields_perform {c : FileCommand} {a : c.Answer} :
    t.Yields (.perform c) a t' ↔ t.Answers c a t' := by
  constructor
  · rintro ⟨_, _, h, rfl, rfl⟩
    exact h
  · exact fun h => ⟨a, t', h, rfl, rfl⟩

theorem yields_bind {p : FileProgram α} {k : α → FileProgram β} {b : β} :
    t.Yields (p >>= k) b t' ↔ ∃ a t₁, t.Yields p a t₁ ∧ t₁.Yields (k a) b t' := by
  change t.Yields (p.bind k) b t' ↔ _
  induction p generalizing t with
  | done a =>
    constructor
    · exact fun h => ⟨a, t, ⟨rfl, rfl⟩, h⟩
    · rintro ⟨_, _, ⟨rfl, rfl⟩, h⟩
      exact h
  | call c next ih =>
    constructor
    · rintro ⟨answer, t₁, hc, h⟩
      obtain ⟨a, t₂, ha, hb⟩ := ih answer |>.mp h
      exact ⟨a, t₂, ⟨answer, t₁, hc, ha⟩, hb⟩
    · rintro ⟨a, t₂, ⟨answer, t₁, hc, ha⟩, hb⟩
      exact ⟨answer, t₁, hc, ih answer |>.mpr ⟨a, t₂, ha, hb⟩⟩

/-- A task goes on behind its first part, or ends with the fault of it. -/
theorem yields_task_bind {x : FileTask α} {f : α → FileTask β} :
    t.Yields (x >>= f : FileTask β) answer t' ↔
      (∃ a t₁, t.Yields x (.ok a) t₁ ∧ t₁.Yields (f a) answer t') ∨
        ∃ fault, t.Yields x (.error fault) t' ∧ answer = .error fault := by
  refine (yields_bind (k := ExceptT.bindCont f)).trans ⟨?_, ?_⟩
  · rintro ⟨fault | a, t₁, hx, hf⟩
    · obtain ⟨rfl, rfl⟩ := hf
      exact .inr ⟨fault, hx, rfl⟩
    · exact .inl ⟨a, t₁, hx, hf⟩
  · rintro (⟨a, t₁, hx, hf⟩ | ⟨fault, hx, rfl⟩)
    · exact ⟨.ok a, t₁, hx, hf⟩
    · exact ⟨.error fault, t', hx, rfl, rfl⟩

theorem yields_task_lift {p : FileProgram α} {f : α → FileTask β}
    (h : t.Yields ((liftM p : FileTask α) >>= f : FileTask β) answer t') :
    ∃ a t₁, t.Yields p a t₁ ∧ t₁.Yields (f a) answer t' := by
  rcases yields_task_bind.mp h with ⟨a, t₁, hx, hf⟩ | ⟨fault, hx, -⟩
  · obtain ⟨_, _, hp, ⟨⟩, rfl⟩ := yields_bind (k := pure ∘ Except.ok) |>.mp hx
    exact ⟨a, t₁, hp, hf⟩
  · obtain ⟨_, _, -, ⟨⟩, -⟩ := yields_bind (k := pure ∘ Except.ok) |>.mp hx

theorem yields_orTell {message : Bytes} {p : FileProgram (Except FileFault β)} :
    t.Yields (FileTask.orTell message p) answer t' ↔
      (∃ a, t.Yields p (.ok a) t' ∧ answer = .ok a) ∨
        ∃ fault, t.Yields p (.error fault) t' ∧ answer = .error (.user message fault.toFault) := by
  refine yields_bind.trans ⟨?_, ?_⟩
  · rintro ⟨fault | a, t₁, hp, hanswer, rfl⟩
    · exact .inr ⟨fault, hp, hanswer⟩
    · exact .inl ⟨a, hp, hanswer⟩
  · rintro (⟨a, hp, rfl⟩ | ⟨fault, hp, rfl⟩)
    · exact ⟨.ok a, t', hp, rfl, rfl⟩
    · exact ⟨.error fault, t', hp, rfl, rfl⟩

/-- A task goes on behind a program, or ends with a message about it. -/
theorem yields_orTell_bind {message : Bytes} {p : FileProgram (Except FileFault α)}
    {f : α → FileTask β} :
    t.Yields (FileTask.orTell message p >>= f : FileTask β) answer t' ↔
      (∃ a t₁, t.Yields p (.ok a) t₁ ∧ t₁.Yields (f a) answer t') ∨
        ∃ fault, t.Yields p (.error fault) t' ∧ answer = .error (.user message fault.toFault) := by
  rw [yields_task_bind]
  refine or_congr ⟨?_, ?_⟩ ⟨?_, ?_⟩
  · rintro ⟨a, t₁, hx, hf⟩
    obtain ⟨_, hp, ⟨⟩⟩ | ⟨_, -, ⟨⟩⟩ := yields_orTell.mp hx
    exact ⟨a, t₁, hp, hf⟩
  · rintro ⟨a, t₁, hp, hf⟩
    exact ⟨a, t₁, yields_orTell.mpr (.inl ⟨a, hp, rfl⟩), hf⟩
  · rintro ⟨_, hx, rfl⟩
    obtain ⟨_, -, ⟨⟩⟩ | ⟨fault, hp, ⟨⟩⟩ := yields_orTell.mp hx
    exact ⟨fault, hp, rfl⟩
  · rintro ⟨fault, hp, rfl⟩
    exact ⟨_, yields_orTell.mpr (.inr ⟨fault, hp, rfl⟩), rfl⟩

/-! ## Making directories -/

theorem Answers.of_isMaking {dir : Bytes} {c : FileCommand} (hc : IsMaking dir c) {a : c.Answer}
    (h : t.Answers c a t') : (a, t') = t.perform c ∨ IsFault c a ∧ t' = t := by
  refine h.imp_right fun ⟨hfault, hleft⟩ => ⟨hfault, hleft.resolve_right ?_⟩
  rintro ⟨part, hpart, -⟩
  cases c with
  | stat | makeDirectory => exact hpart.not_writesNothing trivial
  | _ => exact hc

/-- Whatever fails, only directories on the way are made, and the last of them is
there if the program says so. -/
theorem yields_of_isMaking {t₀ : Tree} {dir : Bytes} {p : FileProgram (Except FileFault Unit)}
    {made : Except FileFault Unit} (h : t.IsSound) (hpaved : t₀.IsPaved dir t)
    (huses : p.Uses (IsMaking dir)) (hvouches : Vouches dir p)
    (hdone : p = .done (.ok ()) → t.isDirectory dir = true) (hrun : t.Yields p made t') :
    t'.IsSound ∧ t₀.IsPaved dir t' ∧ (made = .ok () → t'.isDirectory dir = true) := by
  induction p generalizing t with
  | done r =>
    obtain ⟨rfl, rfl⟩ := hrun
    exact ⟨h, hpaved, fun hr => hdone (congrArg _ hr)⟩
  | call c next ih =>
    obtain ⟨answer, t₁, hc, hrun⟩ := hrun
    rcases hc.of_isMaking huses.1 with hc | ⟨hfault, rfl⟩
    · obtain ⟨rfl, rfl⟩ := Prod.mk.inj hc
      refine ih _ (h.perform_of_isMaking huses.1) (hpaved.perform huses.1) (huses.2 _)
        (hvouches _).2 (fun hnext => ?_) hrun
      exact isDirectory_of_shows h ((hvouches _).1 hnext)
    · refine ih _ h hpaved (huses.2 _) (hvouches _).2 (fun hnext => ?_) hrun
      -- A fault shows nothing.
      have hshows := (hvouches _).1 hnext
      cases c with
      | stat | makeDirectory => cases answer <;> [exact hshows.elim; exact hfault.elim]
      | _ => exact huses.1.elim

/-- Where the directory is there at the end, it is as if nothing had failed. -/
theorem IsSound.yields_makeDirectories (h : t.IsSound) {dir : Bytes}
    {made : Except FileFault Unit} (hrun : t.Yields (.makeDirectories dir) made t') :
    t'.IsSound ∧ t.IsPaved dir t' ∧ (made = .ok () → t'.isDirectory dir = true) ∧
      (t'.isDirectory dir = true → t.run (.makeDirectories dir) = (.ok (), t')) := by
  obtain ⟨hsound, hpaved, hmade⟩ := yields_of_isMaking h ⟨[], List.nil_prefix, rfl⟩
    (isMaking_makeDirectoriesWith _ (.refl dir)) (vouches_makeDirectoriesWith dir.length dir)
    (fun hdone => by
      rw [FileProgram.makeDirectoriesWith_succ] at hdone
      cases hdone) hrun
  refine ⟨hsound, hpaved, hmade, fun hdir => ?_⟩
  obtain rfl := hpaved.eq_pave hdir
  exact run_makeDirectoriesWith_eq_pave h (Nat.lt_succ_self _) hdir

end Tree

end ScanTriage
