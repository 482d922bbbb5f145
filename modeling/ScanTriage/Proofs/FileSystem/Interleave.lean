import ScanTriage.FileSystem.Tree

/-!
# Programs at the same time

Programs that share a tree take their commands in any order. An `Interleaving` holds
the tree, what is left of each program, and the commands that were carried out
so far. A schedule says whose turn it is; what every turn preserves holds of
every schedule (`Interleaving.run_invariant`).
-/

namespace ScanTriage

variable {ι α : Type}

/-- A command that was carried out. -/
structure Act (ι : Type) where
  who : ι
  command : FileCommand
  before : Tree

namespace Act

def answer (a : Act ι) : a.command.Answer := (a.before.perform a.command).1

def after (a : Act ι) : Tree := (a.before.perform a.command).2

end Act

structure Interleaving (ι α : Type) where
  tree : Tree
  programs : ι → FileProgram α
  acts : List (Act ι) := []

namespace Interleaving

variable [DecidableEq ι] {s : Interleaving ι α} {i j : ι} {c : FileCommand}
  {next : c.Answer → FileProgram α}

/-- One turn. A program that is done does nothing. -/
def step (s : Interleaving ι α) (i : ι) : Interleaving ι α :=
  match s.programs i with
  | .done _ => s
  | .call c next =>
    { tree := (s.tree.perform c).2
      programs := fun j => if j = i then next (s.tree.perform c).1 else s.programs j
      acts := s.acts ++ [⟨i, c, s.tree⟩] }

def run (s : Interleaving ι α) (schedule : List ι) : Interleaving ι α := schedule.foldl step s

theorem step_of_call (h : s.programs i = .call c next) :
    s.step i =
      { tree := (s.tree.perform c).2
        programs := fun j => if j = i then next (s.tree.perform c).1 else s.programs j
        acts := s.acts ++ [⟨i, c, s.tree⟩] } := by
  rw [step, h]

theorem tree_step (h : s.programs i = .call c next) : (s.step i).tree = (s.tree.perform c).2 := by
  rw [step_of_call h]

theorem acts_step (h : s.programs i = .call c next) :
    (s.step i).acts = s.acts ++ [⟨i, c, s.tree⟩] := by
  rw [step_of_call h]

theorem programs_step_self (h : s.programs i = .call c next) :
    (s.step i).programs i = next (s.tree.perform c).1 := by
  rw [step_of_call h]
  exact if_pos rfl

theorem programs_step_of_ne (hne : j ≠ i) : (s.step i).programs j = s.programs j := by
  cases h : s.programs i with
  | done a => rw [step, h]
  | call c next =>
    rw [step_of_call h]
    exact if_neg hne

theorem programs_step_of_done {a : α} (h : s.programs j = .done a) :
    (s.step i).programs j = .done a := by
  by_cases hji : j = i
  · subst hji
    rw [step, h]
    exact h
  · rw [programs_step_of_ne hji, h]

theorem run_invariant {P : Interleaving ι α → Prop} (h : P s)
    (hstep : ∀ s i c next, P s → s.programs i = .call c next → P (s.step i)) (schedule : List ι) :
    P (s.run schedule) := by
  induction schedule generalizing s with
  | nil => exact h
  | cons i schedule ih =>
    apply ih
    cases hprogram : s.programs i with
    | done a => rwa [step, hprogram]
    | call c next => exact hstep s i c next h hprogram

end Interleaving

end ScanTriage
