import Mathlib.Data.List.TakeWhile
import ScanTriage.FileSystem.Path

/-!
# Cleaned paths

A path text is cleaned to the text of its parts. The parts are settled: none
of them can be spared, so cleaning again changes nothing (`clean_clean`). A
name put under a directory is one more part (`join_name`), and the directory of
the longer path is the cleaned one (`directory_join`).
-/

namespace ScanTriage

/-! ## Splitting -/

namespace Bytes

variable {sep : UInt8}

theorem splitAcc_eq (s word : Bytes) (acc : List Bytes) :
    splitAcc sep s word acc = acc.reverse ++ splitAcc sep s word [] := by
  induction s generalizing word acc with
  | nil => simp [splitAcc]
  | cons b s ih =>
    rw [splitAcc, splitAcc]
    split
    · rw [ih, ih [] [word.reverse]]
      simp
    · exact ih (b :: word) acc

theorem split_append (a b : Bytes) : split sep (a ++ sep :: b) = split sep a ++ split sep b := by
  have hacc : ∀ word, splitAcc sep (a ++ sep :: b) word [] =
      splitAcc sep a word [] ++ split sep b := by
    induction a with
    | nil =>
      intro word
      have hstep : splitAcc sep (sep :: b) word [] = splitAcc sep b [] [word.reverse] := by
        rw [splitAcc, if_pos (beq_self_eq_true sep)]
      rw [List.nil_append, hstep, splitAcc_eq]
      rfl
    | cons c a ih =>
      intro word
      rw [List.cons_append, splitAcc, splitAcc]
      split
      · rw [splitAcc_eq, ih, splitAcc_eq a [] [word.reverse], List.append_assoc]
      · exact ih (c :: word)
  exact hacc []

theorem split_eq_singleton {a : Bytes} (ha : sep ∉ a) : split sep a = [a] := by
  have hacc : ∀ word, splitAcc sep a word [] = [word.reverse ++ a] := by
    induction a with
    | nil => simp [splitAcc]
    | cons b a ih =>
      intro word
      rw [List.mem_cons, not_or] at ha
      rw [splitAcc, if_neg (by simpa using Ne.symm ha.1), ih ha.2]
      simp
  exact hacc []

/-- The pieces hold no separator, and only bytes of the text. -/
theorem mem_split {s piece : Bytes} (h : piece ∈ split sep s) :
    sep ∉ piece ∧ ∀ b ∈ piece, b ∈ s := by
  have hacc : ∀ (rest word : Bytes) (acc : List Bytes),
      (∀ b ∈ rest, b ∈ s) → (sep ∉ word ∧ ∀ b ∈ word, b ∈ s) →
      (∀ p ∈ acc, sep ∉ p ∧ ∀ b ∈ p, b ∈ s) →
      ∀ p ∈ splitAcc sep rest word acc, sep ∉ p ∧ ∀ b ∈ p, b ∈ s := by
    intro rest
    induction rest with
    | nil =>
      intro word acc _ hword hacc p hp
      rw [splitAcc, List.mem_reverse, List.mem_cons] at hp
      rcases hp with rfl | hp
      · simpa using hword
      · exact hacc p hp
    | cons b rest ih =>
      intro word acc hrest hword hacc p hp
      rw [List.forall_mem_cons] at hrest
      rw [splitAcc] at hp
      split at hp
      · refine ih [] _ hrest.2 ⟨by simp, by simp⟩ ?_ p hp
        rw [List.forall_mem_cons]
        exact ⟨by simpa using hword, hacc⟩
      · next hb =>
        refine ih (b :: word) acc hrest.2 ⟨?_, ?_⟩ hacc p hp
        · rw [List.mem_cons, not_or]
          exact ⟨fun h => hb (by simp [h]), hword.1⟩
        · rw [List.forall_mem_cons]
          exact ⟨hrest.1, hword.2⟩
  exact hacc s [] [] (fun _ h => h) ⟨by simp, by simp⟩ (by simp) piece h

theorem join_singleton (p : Bytes) : join "/" [p] = p := List.intercalate_singleton

theorem join_cons_cons (p q : Bytes) (pieces : List Bytes) :
    join "/" (p :: q :: pieces) = p ++ slash :: join "/" (q :: pieces) := by
  simp only [join, List.intercalate_cons_cons, List.append_assoc]
  rfl

theorem join_concat {pieces : List Bytes} (hne : pieces ≠ []) (p : Bytes) :
    join "/" (pieces ++ [p]) = join "/" pieces ++ slash :: p := by
  induction pieces with
  | nil => exact absurd rfl hne
  | cons q pieces ih =>
    cases pieces with
    | nil => rw [List.singleton_append, join_cons_cons, join_singleton, join_singleton]
    | cons q' pieces =>
      rw [List.cons_append, List.cons_append, join_cons_cons, ← List.cons_append, ih (by simp),
        join_cons_cons, List.append_assoc, List.cons_append]

/-- Pieces that were joined are found again. -/
theorem split_join {pieces : List Bytes} (hne : pieces ≠ []) (h : ∀ p ∈ pieces, slash ∉ p) :
    split slash (join "/" pieces) = pieces := by
  induction pieces with
  | nil => exact absurd rfl hne
  | cons p pieces ih =>
    rw [List.forall_mem_cons] at h
    cases pieces with
    | nil => rw [join_singleton, split_eq_singleton h.1]
    | cons q pieces =>
      rw [join_cons_cons, split_append, split_eq_singleton h.1, ih (by simp) h.2,
        List.singleton_append]

end Bytes

namespace Path

/-- A name that stands for itself in a path. -/
structure IsName (name : Bytes) : Prop where
  ne_nil : name ≠ []
  ne_here : name ≠ "."
  ne_above : name ≠ ".."
  no_slash : Bytes.slash ∉ name
  no_nul : 0 ∉ name

instance (name : Bytes) : Decidable (IsName name) :=
  decidable_of_iff (name ≠ [] ∧ name ≠ "." ∧ name ≠ ".." ∧ Bytes.slash ∉ name ∧ 0 ∉ name)
    ⟨fun ⟨h₁, h₂, h₃, h₄, h₅⟩ => ⟨h₁, h₂, h₃, h₄, h₅⟩,
      fun ⟨h₁, h₂, h₃, h₄, h₅⟩ => ⟨h₁, h₂, h₃, h₄, h₅⟩⟩

def parts (path : Bytes) : List Bytes :=
  ((Bytes.split Bytes.slash path).foldl (push (isAbsolute path)) []).reverse

def render (rooted : Bool) (parts : List Bytes) : Bytes :=
  if rooted then Bytes.slash :: Bytes.join "/" parts
  else if parts.isEmpty then "."
  else Bytes.join "/" parts

theorem clean_eq_render (path : Bytes) : clean path = render (isAbsolute path) (parts path) := rfl

/-! ## Settled parts -/

/-- No part of a stack can be spared. -/
def Settled (rooted : Bool) : List Bytes → Prop
  | [] => True
  | top :: below => push rooted below top = top :: below ∧ Settled rooted below

variable {rooted : Bool} {stack : List Bytes} {name : Bytes}

theorem push_nil : push rooted stack [] = stack := rfl

theorem push_here : push rooted stack "." = stack := rfl

theorem push_above_above (below : List Bytes) :
    push rooted ((".." : Bytes) :: below) ".." = (".." : Bytes) :: (".." : Bytes) :: below := rfl

theorem push_above_cons {top : Bytes} (htop : top ≠ "..") (below : List Bytes) :
    push rooted (top :: below) ".." = below := by
  change (if top == (".." : Bytes) then _ else _) = below
  rw [if_neg (by simpa using htop)]

theorem push_other {part : Bytes} (hne : part ≠ []) (hhere : part ≠ ".") (habove : part ≠ "..") :
    push rooted stack part = part :: stack := by
  have hempty : part.isEmpty = false := by simpa using hne
  simp [push, hempty, hhere, habove]

theorem push_name (hname : IsName name) : push rooted stack name = name :: stack :=
  push_other hname.ne_nil hname.ne_here hname.ne_above

theorem settled_push (h : Settled rooted stack) (part : Bytes) :
    Settled rooted (push rooted stack part) := by
  by_cases hempty : part = []
  · rwa [hempty, push_nil]
  by_cases hhere : part = "."
  · rwa [hhere, push_here]
  by_cases habove : part = ".."
  · rw [habove]
    cases stack with
    | nil =>
      cases rooted with
      | true => trivial
      | false => exact ⟨rfl, trivial⟩
    | cons top below =>
      by_cases htop : top = ".."
      · rw [htop] at h ⊢
        exact ⟨push_above_above below, h⟩
      · rw [push_above_cons htop]
        exact h.2
  · rw [push_other hempty hhere habove]
    exact ⟨push_other hempty hhere habove, h⟩

theorem settled_foldl (pieces : List Bytes) (h : Settled rooted stack) :
    Settled rooted (pieces.foldl (push rooted) stack) := by
  induction pieces generalizing stack with
  | nil => exact h
  | cons p pieces ih => exact ih (settled_push h p)

/-- Settled parts stay as they are. -/
theorem foldl_settled (h : Settled rooted stack) : stack.reverse.foldl (push rooted) [] = stack := by
  induction stack with
  | nil => rfl
  | cons top below ih =>
    rw [List.reverse_cons, List.foldl_append, ih h.2]
    exact h.1

theorem ne_nil_of_settled (h : Settled rooted stack) {p : Bytes} (hp : p ∈ stack) : p ≠ [] := by
  induction stack with
  | nil => cases hp
  | cons top below ih =>
    rcases List.mem_cons.mp hp with rfl | hp
    · rintro rfl
      have hlength := congrArg List.length h.1
      simp [push_nil] at hlength
    · exact ih h.2 hp

theorem mem_foldl_push {pieces : List Bytes} {p : Bytes}
    (hp : p ∈ pieces.foldl (push rooted) stack) : p ∈ stack ∨ p ∈ pieces := by
  have hpush : ∀ stack q, p ∈ push rooted stack q → p ∈ stack ∨ p = q := by
    intro stack q h
    unfold push at h
    split at h
    · exact .inl h
    split at h
    · split at h
      · split at h
        · exact .inl h
        · exact .inr (List.mem_singleton.mp h)
      · split at h
        · exact (List.mem_cons.mp h).symm
        · exact .inl (List.mem_cons_of_mem _ h)
    · exact (List.mem_cons.mp h).symm
  induction pieces generalizing stack with
  | nil => exact .inl hp
  | cons q pieces ih =>
    rcases ih hp with h | h
    · rcases hpush stack q h with h | rfl
      · exact .inl h
      · exact .inr List.mem_cons_self
    · exact .inr (List.mem_cons_of_mem _ h)

/-- Parts that a cleaned path can have. -/
structure IsClean (rooted : Bool) (ps : List Bytes) : Prop where
  settled : Settled rooted ps.reverse
  no_slash : ∀ p ∈ ps, Bytes.slash ∉ p

theorem isClean_parts (path : Bytes) : IsClean (isAbsolute path) (parts path) where
  settled := by
    rw [parts, List.reverse_reverse]
    exact settled_foldl _ trivial
  no_slash := by
    intro p hp
    rcases mem_foldl_push (List.mem_reverse.mp hp) with h | h
    · cases h
    · exact (Bytes.mem_split h).1

theorem mem_of_mem_parts {path p : Bytes} (hp : p ∈ parts path) : ∀ b ∈ p, b ∈ path := by
  rcases mem_foldl_push (List.mem_reverse.mp hp) with h | h
  · cases h
  · exact (Bytes.mem_split h).2

variable {ps : List Bytes}

theorem IsClean.ne_nil (h : IsClean rooted ps) {p : Bytes} (hp : p ∈ ps) : p ≠ [] :=
  ne_nil_of_settled h.settled (List.mem_reverse.mpr hp)

theorem IsClean.concat (h : IsClean rooted ps) (hname : IsName name) :
    IsClean rooted (ps ++ [name]) where
  settled := by
    rw [List.reverse_append, List.reverse_singleton]
    exact ⟨push_name hname, h.settled⟩
  no_slash := by
    intro p hp
    rcases List.mem_append.mp hp with hp | hp
    · exact h.no_slash p hp
    · rw [List.mem_singleton.mp hp]
      exact hname.no_slash

/-! ## The text of settled parts -/

theorem isAbsolute_append {s : Bytes} (hs : s ≠ []) (rest : Bytes) :
    isAbsolute (s ++ rest) = isAbsolute s := by
  cases s with
  | nil => exact absurd rfl hs
  | cons b s => rfl

theorem render_ne_nil (h : IsClean rooted ps) : render rooted ps ≠ [] := by
  cases rooted with
  | true => exact List.cons_ne_nil _ _
  | false =>
    cases ps with
    | nil => exact (by decide : render false [] ≠ [])
    | cons p ps =>
      have hp := h.ne_nil List.mem_cons_self
      cases ps with
      | nil => simpa [render, Bytes.join_singleton] using hp
      | cons q ps => simp [render, Bytes.join_cons_cons, hp]

theorem isAbsolute_render (h : IsClean rooted ps) : isAbsolute (render rooted ps) = rooted := by
  cases rooted with
  | true => rfl
  | false =>
    cases ps with
    | nil => exact (by decide : isAbsolute (render false []) = false)
    | cons p ps =>
      have hjoin : ∃ rest, render false (p :: ps) = p ++ rest := by
        cases ps with
        | nil => exact ⟨[], by simp [render, Bytes.join_singleton]⟩
        | cons q ps => exact ⟨_, Bytes.join_cons_cons p q ps⟩
      obtain ⟨rest, hrest⟩ := hjoin
      rw [hrest, isAbsolute_append (h.ne_nil List.mem_cons_self)]
      have hslash := h.no_slash p List.mem_cons_self
      cases p with
      | nil => rfl
      | cons b p =>
        have hne : b ≠ Bytes.slash := fun h => hslash (h ▸ List.mem_cons_self)
        simpa [isAbsolute] using hne

/-- The pieces of a text, as far as cleaning cares. -/
theorem foldl_split_render (h : IsClean rooted ps) :
    (Bytes.split Bytes.slash (render rooted ps)).foldl (push rooted) [] = ps.reverse := by
  have hps : ps.foldl (push rooted) [] = ps.reverse := by
    simpa using foldl_settled h.settled
  by_cases hne : ps = []
  · subst hne
    cases rooted <;> decide
  · cases rooted with
    | true =>
      have hrender : render true ps = [] ++ Bytes.slash :: Bytes.join "/" ps := rfl
      rw [hrender, Bytes.split_append, Bytes.split_join hne h.no_slash]
      exact hps
    | false =>
      have hrender : render false ps = Bytes.join "/" ps := by simp [render, hne]
      rw [hrender, Bytes.split_join hne h.no_slash, hps]

theorem parts_render (h : IsClean rooted ps) : parts (render rooted ps) = ps := by
  rw [parts, isAbsolute_render h, foldl_split_render h, List.reverse_reverse]

theorem clean_render (h : IsClean rooted ps) : clean (render rooted ps) = render rooted ps := by
  rw [clean_eq_render, isAbsolute_render h, parts_render h]

theorem clean_clean (path : Bytes) : clean (clean path) = clean path :=
  clean_render (isClean_parts path)

theorem clean_ne_nil (path : Bytes) : clean path ≠ [] := render_ne_nil (isClean_parts path)

/-! ## Names under a directory -/

/-- A name under a directory is one more part. -/
theorem join_name {dir : Bytes} (hdir : dir ≠ []) (hname : IsName name) :
    join [dir, name] = render (isAbsolute dir) (parts dir ++ [name]) := by
  have hfilter : [dir, name].filter (fun p => !p.isEmpty) = [dir, name] := by
    simp [hdir, hname.ne_nil]
  have hjoin : join [dir, name] = clean (dir ++ Bytes.slash :: name) := by
    simp only [join, hfilter]
    rw [Bytes.join_cons_cons, Bytes.join_singleton]
  rw [hjoin, clean_eq_render, isAbsolute_append hdir, parts, isAbsolute_append hdir,
    Bytes.split_append, Bytes.split_eq_singleton hname.no_slash, List.foldl_append,
    List.foldl_cons, List.foldl_nil, push_name hname, List.reverse_cons]
  rfl

/-- It does not matter whether the directory is cleaned first. -/
theorem join_clean {dir : Bytes} (hdir : dir ≠ []) (hname : IsName name) :
    join [clean dir, name] = join [dir, name] := by
  have hclean := isClean_parts dir
  rw [join_name (clean_ne_nil dir) hname, join_name hdir hname, clean_eq_render,
    isAbsolute_render hclean, parts_render hclean]

theorem render_concat (hne : ps ≠ []) :
    render rooted (ps ++ [name]) = render rooted ps ++ Bytes.slash :: name := by
  cases rooted <;> simp [render, hne, Bytes.join_concat hne]

theorem throughLast_name (hname : Bytes.slash ∉ name) (s : Bytes) :
    Bytes.throughLast Bytes.slash (s ++ Bytes.slash :: name) = s ++ [Bytes.slash] := by
  have hpos : ∀ b ∈ name.reverse, (b != Bytes.slash) = true := by
    intro b hb
    have hne : b ≠ Bytes.slash := fun h => hname (h ▸ List.mem_reverse.mp hb)
    simpa using hne
  rw [Bytes.throughLast, List.reverse_append, List.reverse_cons, List.append_assoc,
    List.dropWhile_append_of_pos hpos]
  simp

theorem directory_join {dir : Bytes} (hdir : dir ≠ []) (hname : IsName name) :
    directory (join [dir, name]) = clean dir := by
  have hclean := isClean_parts dir
  rw [join_name hdir hname, clean_eq_render dir, directory]
  generalize isAbsolute dir = rooted at hclean ⊢
  generalize parts dir = ps at hclean ⊢
  by_cases hne : ps = []
  · subst hne
    have hthrough := throughLast_name hname.no_slash []
    cases rooted with
    | true =>
      have hrender : render true ([] ++ [name]) = [] ++ Bytes.slash :: name := by
        simp [render, Bytes.join_singleton]
      rw [hrender, hthrough]
      decide
    | false =>
      have hrender : render false ([] ++ [name]) = name := by simp [render, Bytes.join_singleton]
      have hnone : Bytes.throughLast Bytes.slash name = [] := by
        have hpos : ∀ b ∈ name.reverse, (b != Bytes.slash) = true := by
          intro b hb
          have hne : b ≠ Bytes.slash := fun h => hname.no_slash (h ▸ List.mem_reverse.mp hb)
          simpa using hne
        rw [Bytes.throughLast, List.dropWhile_eq_nil_iff.mpr hpos, List.reverse_nil]
      rw [hrender, hnone]
      decide
  · rw [render_concat hne, throughLast_name hname.no_slash, clean_eq_render,
      isAbsolute_append (render_ne_nil hclean), isAbsolute_render hclean, parts,
      isAbsolute_append (render_ne_nil hclean), isAbsolute_render hclean, Bytes.split_append,
      List.foldl_append, foldl_split_render hclean]
    have hlast : (Bytes.split Bytes.slash []).foldl (push rooted) ps.reverse = ps.reverse := rfl
    rw [hlast, List.reverse_reverse]

theorem length_clean_le {dir : Bytes} (hdir : dir ≠ []) (hname : IsName name) :
    (clean dir).length ≤ (join [dir, name]).length := by
  have hlong := List.length_pos_iff.mpr (render_ne_nil ((isClean_parts dir).concat hname))
  rw [join_name hdir hname, clean_eq_render]
  by_cases hne : parts dir = []
  · have hshort : ∀ rooted, (render rooted []).length = 1 := by decide
    rw [hne] at hlong ⊢
    rw [hshort]
    exact hlong
  · rw [render_concat hne, List.length_append]
    omega

theorem length_join_le {dir : Bytes} (hdir : dir ≠ []) (hname : IsName name) :
    (join [dir, name]).length ≤ (clean dir).length + 1 + name.length := by
  rw [join_name hdir hname, clean_eq_render]
  by_cases hne : parts dir = []
  · rw [hne]
    have hrender : ∀ rooted, (render rooted ([] ++ [name])).length ≤ 1 + name.length := by
      intro rooted
      cases rooted <;> simp [render, Bytes.join_singleton, Nat.add_comm]
    exact Nat.le_trans (hrender _) (by omega)
  · rw [render_concat hne, List.length_append, List.length_cons]
    omega

/-! ## Slashes at the end -/

/-- A path without the slashes at its end. -/
def trimmed (path : Bytes) : Bytes := (path.reverse.dropWhile (· == Bytes.slash)).reverse

theorem exists_trimmed (path : Bytes) :
    ∃ k, path = trimmed path ++ List.replicate k Bytes.slash := by
  refine ⟨(path.reverse.takeWhile (· == Bytes.slash)).length, ?_⟩
  have hall : path.reverse.takeWhile (· == Bytes.slash) =
      List.replicate (path.reverse.takeWhile (· == Bytes.slash)).length Bytes.slash :=
    List.eq_replicate_iff.mpr ⟨rfl, fun b hb => by simpa using List.mem_takeWhile_imp hb⟩
  have hreverse := congrArg List.reverse (List.takeWhile_append_dropWhile
    (p := (· == Bytes.slash)) (l := path.reverse))
  rw [List.reverse_append, List.reverse_reverse, hall, List.reverse_replicate] at hreverse
  exact hreverse.symm

theorem getLast?_trimmed (path : Bytes) : (trimmed path).getLast? ≠ some Bytes.slash := by
  rw [trimmed, List.getLast?_reverse]
  intro hhead
  have hnot := List.head?_dropWhile_not (· == Bytes.slash) path.reverse
  rw [hhead] at hnot
  simp at hnot

def pieces (path : Bytes) : List Bytes :=
  (Bytes.split Bytes.slash path).filter fun p => !p.isEmpty

theorem pieces_append (a b : Bytes) : pieces (a ++ Bytes.slash :: b) = pieces a ++ pieces b := by
  rw [pieces, Bytes.split_append, List.filter_append]
  rfl

theorem pieces_slashes (k : Nat) : pieces (List.replicate k Bytes.slash) = [] := by
  induction k with
  | zero => rfl
  | succ k ih => exact (pieces_append [] _).trans ih

theorem pieces_trimmed (path : Bytes) : pieces (trimmed path) = pieces path := by
  obtain ⟨k, hk⟩ := exists_trimmed path
  have hpieces := congrArg pieces hk
  cases k with
  | zero => simpa using hpieces.symm
  | succ k =>
    rw [List.replicate_succ, pieces_append, pieces_slashes, List.append_nil] at hpieces
    exact hpieces.symm

theorem pieces_eq_singleton (hne : name ≠ []) (hslash : Bytes.slash ∉ name) : pieces name = [name] := by
  rw [pieces, Bytes.split_eq_singleton hslash]
  simp [hne]

theorem isAbsolute_trimmed {path : Bytes} (h : trimmed path ≠ []) :
    isAbsolute (trimmed path) = isAbsolute path := by
  obtain ⟨k, hk⟩ := exists_trimmed path
  exact ((congrArg isAbsolute hk).trans (isAbsolute_append h _)).symm

/-- A path is what is above it, a slash, and one piece more. -/
theorem trimmed_eq_above {path : Bytes} (h : trimmed path ≠ []) :
    ∃ last, last ≠ [] ∧ Bytes.slash ∉ last ∧
      (trimmed path = above path ++ Bytes.slash :: last ∨ above path = [] ∧ trimmed path = last) := by
  have hends := getLast?_trimmed path
  have habove : above path =
      (((trimmed path).reverse.dropWhile (· != Bytes.slash)).reverse).dropLast := rfl
  have hsplit := congrArg List.reverse (List.takeWhile_append_dropWhile
    (p := (· != Bytes.slash)) (l := (trimmed path).reverse))
  rw [List.reverse_append, List.reverse_reverse] at hsplit
  have hslash : Bytes.slash ∉ ((trimmed path).reverse.takeWhile (· != Bytes.slash)).reverse := by
    intro hmem
    simpa using List.mem_takeWhile_imp (List.mem_reverse.mp hmem)
  refine ⟨_, ?_, hslash, ?_⟩
  · intro hnil
    rw [hnil, List.append_nil] at hsplit
    have hhead := List.head?_dropWhile_not (· != Bytes.slash) (trimmed path).reverse
    rw [← List.getLast?_reverse, hsplit] at hhead
    have hlast := List.getLast?_eq_some_getLast h
    rw [hlast] at hends hhead
    exact hends (by simpa using hhead)
  · cases hdrop : (trimmed path).reverse.dropWhile (· != Bytes.slash) with
    | nil =>
      rw [hdrop] at hsplit habove
      exact .inr ⟨habove, hsplit.symm⟩
    | cons b rest =>
      have hhead := List.head?_dropWhile_not (· != Bytes.slash) (trimmed path).reverse
      rw [hdrop] at hhead
      have hb : b = Bytes.slash := by simpa using hhead
      rw [hdrop, hb, List.reverse_cons] at hsplit habove
      rw [List.dropLast_concat] at habove
      rw [List.append_assoc, List.singleton_append] at hsplit
      exact .inl (habove ▸ hsplit.symm)

/-- The pieces of a path are those above it and one more. -/
theorem pieces_eq_above {path : Bytes} (h : trimmed path ≠ []) :
    ∃ last, pieces path = pieces (above path) ++ [last] := by
  obtain ⟨last, hne, hslash, hsplit | ⟨habove, hsplit⟩⟩ := trimmed_eq_above h
  · refine ⟨last, ?_⟩
    rw [← pieces_trimmed, hsplit, pieces_append, pieces_eq_singleton hne hslash]
  · refine ⟨last, ?_⟩
    rw [← pieces_trimmed, hsplit, habove, pieces_eq_singleton hne hslash]
    rfl

theorem pieces_eq_nil {path : Bytes} (h : trimmed path = []) : pieces path = [] := by
  rw [← pieces_trimmed, h]
  rfl

theorem trimmed_ne_nil {path : Bytes} (h : above path ≠ []) : trimmed path ≠ [] := by
  intro hnil
  apply h
  change (Bytes.throughLast Bytes.slash (trimmed path)).dropLast = []
  rw [hnil]
  rfl

theorem isAbsolute_above {path : Bytes} (h : above path ≠ []) :
    isAbsolute (above path) = isAbsolute path := by
  have htrimmed := trimmed_ne_nil h
  obtain ⟨last, -, -, hsplit | ⟨hnil, -⟩⟩ := trimmed_eq_above htrimmed
  · rw [← isAbsolute_trimmed htrimmed, hsplit, isAbsolute_append h]
  · exact absurd hnil h

theorem mem_of_mem_trimmed {path : Bytes} {b : UInt8} (h : b ∈ trimmed path) : b ∈ path := by
  obtain ⟨k, hk⟩ := exists_trimmed path
  rw [hk]
  exact List.mem_append_left _ h

theorem length_trimmed_le (path : Bytes) : (trimmed path).length ≤ path.length := by
  obtain ⟨k, hk⟩ := exists_trimmed path
  have hlength := congrArg List.length hk
  rw [List.length_append] at hlength
  omega

/-- What is above a path is shorter. -/
theorem length_above_lt {path : Bytes} (h : above path ≠ []) :
    (above path).length < path.length := by
  have hle := length_trimmed_le path
  obtain ⟨last, -, -, hsplit | ⟨hnil, -⟩⟩ := trimmed_eq_above (trimmed_ne_nil h)
  · rw [hsplit, List.length_append, List.length_cons] at hle
    omega
  · exact absurd hnil h

theorem mem_of_mem_above {path : Bytes} {b : UInt8} (h : b ∈ above path) : b ∈ path := by
  have hne : above path ≠ [] := List.ne_nil_of_mem h
  obtain ⟨last, -, -, hsplit | ⟨hnil, -⟩⟩ := trimmed_eq_above (trimmed_ne_nil hne)
  · refine mem_of_mem_trimmed ?_
    rw [hsplit]
    exact List.mem_append_left _ h
  · exact absurd hnil hne

end Path

end ScanTriage
