import Mathlib.Data.List.Nodup
import Mathlib.Data.List.Perm.Basic
import ScanTriage.History.Store
import ScanTriage.Proofs.FileSystem.Folder
import ScanTriage.Proofs.Number.Numerals
import ScanTriage.Proofs.Sorting.Sorted

/-!
# Archives of a folder

An archive is told by its name, and the archives of a folder are put in the
order of their numbers (`Ranked`). Archives of one number stand in the order of
their names if there are few of them (`ascending_eq`). A change at one name of
a folder adds or removes one archive, or none.
-/

namespace ScanTriage

namespace History

open ScanTriage.Path (IsName)

/-! ## Archives by number -/

/-- Archives in the order of their numbers, those of one number in the order
that they have among `found`. -/
structure Ranked (found ranked : List Archive) : Prop where
  sorted : ranked.Pairwise fun a b => a.number ≤ b.number
  filter : ∀ n, ranked.filter (·.number == n) = found.filter (·.number == n)

variable {found ranked ranked' : List Archive} {a : Archive}

theorem Ranked.mem_iff (h : Ranked found ranked) : a ∈ ranked ↔ a ∈ found := by
  have hmem : ∀ l : List Archive, a ∈ l ↔ a ∈ l.filter (·.number == a.number) := fun l => by simp
  rw [hmem ranked, hmem found, h.filter]

theorem Ranked.perm (h : Ranked found ranked) : ranked.Perm found := by
  rw [List.perm_iff_count]
  intro a
  have hcount : ∀ l : List Archive, l.count a = (l.filter (·.number == a.number)).count a :=
    fun l => by rw [List.count_filter (by simp)]
  rw [hcount ranked, hcount found, h.filter]

theorem Ranked.unique (h : Ranked found ranked) (h' : Ranked found ranked') : ranked = ranked' := by
  have huniq : ∀ l l' : List Archive, l.Pairwise (fun a b => a.number ≤ b.number) →
      l'.Pairwise (fun a b => a.number ≤ b.number) →
      (∀ n, l.filter (·.number == n) = l'.filter (·.number == n)) → l = l' := by
    intro l
    induction l with
    | nil =>
      intro l' _ _ hfilter
      cases l' with
      | nil => rfl
      | cons b l' => simpa using hfilter b.number
    | cons a l ih =>
      intro l' hl hl' hfilter
      cases l' with
      | nil => simpa using hfilter a.number
      | cons b l' =>
        have hle : ∀ {x y : Archive} {l l' : List Archive},
            (y :: l').Pairwise (fun a b => a.number ≤ b.number) →
            (∀ n, (x :: l).filter (·.number == n) = (y :: l').filter (·.number == n)) →
            y.number ≤ x.number := by
          intro x y l l' hsorted hfilter
          have hx : x ∈ (y :: l').filter (·.number == x.number) := by simp [← hfilter]
          rcases List.mem_cons.mp (List.mem_filter.mp hx).1 with rfl | hx
          · exact Int64.le_refl _
          · exact (List.pairwise_cons.mp hsorted).1 x hx
        have hnumber : a.number = b.number :=
          Int64.le_antisymm (hle hl fun n => (hfilter n).symm) (hle hl' hfilter)
        have hab : a = b := by
          have hhead := congrArg List.head? (hfilter a.number)
          simpa [hnumber] using hhead
        subst hab
        rw [List.pairwise_cons] at hl hl'
        refine congrArg (a :: ·) (ih l' hl.2 hl'.2 fun n => ?_)
        have hn := hfilter n
        by_cases ha : (a.number == n) = true
        · simpa [List.filter_cons, ha] using hn
        · simpa [List.filter_cons, ha] using hn
  exact huniq _ _ h.sorted h'.sorted fun n => (h.filter n).trans (h'.filter n).symm

theorem isOrder_number : Quicksort.IsOrder fun a b : Archive => decide (a.number < b.number) where
  asymm h := by
    rw [decide_eq_true_eq] at h
    exact decide_eq_false (Int64.not_lt.mpr (Int64.le_of_lt h))
  trans hxy hyz := by
    rw [decide_eq_false_iff_not, Int64.not_lt] at *
    exact Int64.le_trans hxy hyz

theorem pairwise_ascending (found : List Archive) :
    (ascending found).Pairwise fun a b => a.number ≤ b.number :=
  (Quicksort.pairwise_sort isOrder_number found).imp fun h => by simpa using h

theorem ascending_perm (found : List Archive) : (ascending found).Perm found :=
  Quicksort.sort_perm ..

/-- Equal numbers keep their order where there are few archives, and there are no equal
numbers where they differ. -/
theorem ranked_ascending
    (h : found.length ≤ Quicksort.maxInsertion ∨ (found.map (·.number)).Nodup) :
    Ranked found (ascending found) := by
  refine ⟨pairwise_ascending found, fun n => ?_⟩
  rcases h with hfew | hdistinct
  · refine Quicksort.filter_sort _ (fun x y hx hy => ?_) hfew
    rw [beq_iff_eq] at hx hy
    simp [hx, hy, Int64.lt_irrefl]
  · have hperm := (ascending_perm found).filter (·.number == n)
    have hnodup : ((found.filter (·.number == n)).map (·.number)).Nodup :=
      hdistinct.sublist (List.filter_sublist.map _)
    have hall : ∀ x ∈ found.filter (·.number == n), x.number = n := fun x hx => by
      simpa using (List.mem_filter.mp hx).2
    generalize found.filter (·.number == n) = equal at hperm hnodup hall
    match equal with
    | [] => exact List.perm_nil.mp hperm
    | [x] => exact List.perm_singleton.mp hperm
    | x :: y :: rest =>
      have hxy : x.number = y.number := (hall x (by simp)).trans (hall y (by simp)).symm
      simp [hxy] at hnodup

/-- Few archives, or archives of different numbers, are put in that order. -/
theorem ascending_eq (hfew : found.length ≤ Quicksort.maxInsertion ∨ (found.map (·.number)).Nodup)
    (h : Ranked found ranked) : ascending found = ranked :=
  (ranked_ascending hfew).unique h

theorem Ranked.tail (h : Ranked found (a :: ranked)) (hnodup : found.Nodup) :
    Ranked (found.filter (· != a)) ranked := by
  have hcons : (a :: ranked).Nodup := h.perm.nodup_iff.mpr hnodup
  refine ⟨(List.pairwise_cons.mp h.sorted).2, fun n => ?_⟩
  have hrest : (a :: ranked).filter (· != a) = ranked := by
    rw [List.filter_cons_of_neg (by simp), List.filter_eq_self]
    intro b hb
    simpa using fun hba : b = a => (List.nodup_cons.mp hcons).1 (hba ▸ hb)
  rw [← List.filter_comm, ← h.filter n, List.filter_comm, hrest]

/-- One more archive, with a number above all others. -/
theorem Ranked.concat {found' : List Archive} (h : Ranked found ranked)
    (hothers : found'.filter (· != a) = found) (hnew : a ∈ found') (hnodup : found'.Nodup)
    (habove : ∀ b ∈ ranked, b.number < a.number) : Ranked found' (ranked ++ [a]) := by
  refine ⟨List.pairwise_append.mpr ⟨h.sorted, List.pairwise_singleton .., ?_⟩, fun n => ?_⟩
  · intro b hb x hx
    rw [List.mem_singleton.mp hx]
    exact Int64.le_of_lt (habove b hb)
  · rw [List.filter_append, h.filter n, ← hothers]
    by_cases hn : a.number = n
    · have hnone : (found'.filter (· != a)).filter (·.number == n) = [] := by
        rw [hothers, ← h.filter n, List.filter_eq_nil_iff]
        intro b hb hbn
        rw [beq_iff_eq, ← hn] at hbn
        exact Int64.lt_irrefl (hbn ▸ habove b hb)
      have hsingle : found'.filter (·.number == n) = [a] := by
        rw [← List.perm_singleton, List.perm_ext_iff_of_nodup (hnodup.filter _) (by simp)]
        intro b
        refine ⟨fun hb => ?_, fun hb => ?_⟩
        · by_contra hba
          have hmem : b ∈ (found'.filter (· != a)).filter (·.number == n) := by
            rw [List.mem_filter] at hb ⊢
            exact ⟨List.mem_filter.mpr ⟨hb.1, by simpa using hba⟩, hb.2⟩
          rw [hnone] at hmem
          cases hmem
        · rw [List.mem_singleton.mp hb]
          exact List.mem_filter.mpr ⟨hnew, by simpa using hn⟩
      rw [hnone, hsingle]
      simp [hn]
    · rw [List.filter_comm, List.filter_eq_self.mpr]
      · simp [hn]
      · intro b hb
        have hbn := (List.mem_filter.mp hb).2
        rw [beq_iff_eq] at hbn
        simpa using fun hba : b = a => hn (hba ▸ hbn)

/-! ## Names of archives -/

/-- A numeral consists of digits, but for its sign. -/
theorem mem_of_readDecimal {s : Bytes} {n : Int64} (h : Integer.readDecimal s = .ok n) :
    ∀ b ∈ s, Bytes.isDigit b = true ∨ b = Bytes.minus ∨ b = Bytes.plus := by
  have hinteger := Integer.readDecimal_eq_ok.mp h
  generalize n.toInt = m at hinteger
  cases hinteger with
  | plain _ hdigits => exact fun b hb => .inl (hdigits b hb)
  | plus _ hdigits =>
    exact List.forall_mem_cons.mpr ⟨.inr (.inr rfl), fun b hb => .inl (hdigits b hb)⟩
  | minus _ hdigits =>
    exact List.forall_mem_cons.mpr ⟨.inr (.inl rfl), fun b hb => .inl (hdigits b hb)⟩

/-- The archive that a directory entry is, under the path of the directory. -/
def archiveOf? (dir : Bytes) (e : DirectoryEntry) : Option Archive :=
  match Entry.of e with
  | .archive n => some ⟨n, Path.join [dir, e.name]⟩
  | _ => none

theorem digits_between (front digits back : Bytes) :
    ((front ++ digits ++ back).drop front.length).take
      ((front ++ digits ++ back).length - front.length - back.length) = digits := by
  rw [List.append_assoc, List.drop_left, List.length_append, List.length_append]
  exact List.take_left' (by omega)

theorem entry_of_archive {e : DirectoryEntry} {n : Int64} (h : Entry.of e = .archive n) :
    e.isDirectory = false ∧ 1 ≤ n ∧
      ∃ digits, e.name = archiveFront ++ digits ++ archiveBack ∧
        Integer.readDecimal digits = .ok n := by
  unfold Entry.of at h
  split at h
  · cases h
  split at h
  · cases h
  next hcond hlength =>
  simp only [Bool.or_eq_true, Bool.not_eq_true', not_or, Bool.not_eq_true, Bool.not_eq_false]
    at hcond
  obtain ⟨⟨hdir, hfront⟩, hback⟩ := hcond
  obtain ⟨rest, hrest⟩ := List.isPrefixOf_iff_prefix.mp hfront
  obtain ⟨pre, hpre⟩ := List.isSuffixOf_iff_suffix.mp hback
  have hparts : ∃ digits, e.name = archiveFront ++ digits ++ archiveBack := by
    rcases List.append_eq_append_iff.mp (hrest.trans hpre.symm) with ⟨x, hx, hx'⟩ | ⟨x, hx, hx'⟩
    · exact ⟨x, by rw [← hrest, hx', List.append_assoc]⟩
    · -- Front and back would overlap in `x`, which the length of the name rules out.
      have hlong := congrArg List.length hx'
      have hname := congrArg List.length hrest
      rw [List.length_append] at hlong hname
      have hempty : x = [] := List.eq_nil_of_length_eq_zero (by omega)
      rw [hempty, List.nil_append] at hx'
      exact ⟨[], by rw [← hrest, ← hx', List.append_nil]⟩
  obtain ⟨digits, hdigits⟩ := hparts
  rw [hdigits, digits_between] at h
  dsimp only at h
  split at h
  · next m hm =>
    split at h
    · cases h
    · next hpositive =>
      cases h
      exact ⟨hdir, Int64.not_lt.mp hpositive, digits, hdigits, hm⟩
  · cases h

theorem isName_of_archive {e : DirectoryEntry} {n : Int64} (h : Entry.of e = .archive n) :
    IsName e.name := by
  obtain ⟨-, -, digits, hname, hdigits⟩ := entry_of_archive h
  have hmem := mem_of_readDecimal hdigits
  have hlength : 2 < e.name.length := by
    have hfront : archiveFront.length = 21 := by decide
    rw [hname, List.length_append, List.length_append]
    omega
  have hnot : ∀ b : UInt8, b ∉ archiveFront → b ∉ archiveBack → Bytes.isDigit b = false →
      b ≠ Bytes.minus → b ≠ Bytes.plus → b ∉ e.name := by
    intro b hfront hback hdigit hminus hplus hb
    rw [hname, List.mem_append, List.mem_append] at hb
    rcases hb with (hb | hb) | hb
    · exact hfront hb
    · rcases hmem b hb with h | h | h
      · rw [hdigit] at h
        cases h
      · exact hminus h
      · exact hplus h
    · exact hback hb
  refine ⟨fun h => ?_, fun h => ?_, fun h => ?_, ?_, ?_⟩
  · simp [h] at hlength
  · rw [h] at hlength
    exact absurd hlength (by decide)
  · rw [h] at hlength
    exact absurd hlength (by decide)
  · exact hnot _ (by decide) (by decide) (by decide) (by decide) (by decide)
  · exact hnot _ (by decide) (by decide) (by decide) (by decide) (by decide)

def archiveName (n : Int64) : Bytes := archiveFront ++ Bytes.decimalInt64 n ++ archiveBack

/-- A file with a positive number between front and back is an archive. -/
theorem entry_of_between {e : DirectoryEntry} {digits : Bytes} {n : Int64}
    (hfile : e.isDirectory = false) (hname : e.name = archiveFront ++ digits ++ archiveBack)
    (hread : Integer.readDecimal digits = .ok n) (hn : 1 ≤ n) : Entry.of e = .archive n := by
  have hfront : archiveFront.isPrefixOf e.name = true :=
    List.isPrefixOf_iff_prefix.mpr ⟨digits ++ archiveBack, by rw [hname, List.append_assoc]⟩
  have hback : archiveBack.isSuffixOf e.name = true :=
    List.isSuffixOf_iff_suffix.mpr ⟨archiveFront ++ digits, hname.symm⟩
  have hnamed : ¬ (e.isDirectory || !archiveFront.isPrefixOf e.name ||
      !archiveBack.isSuffixOf e.name) = true := by
    simp [hfile, hfront, hback]
  have hlength : ¬ e.name.length < archiveFront.length + archiveBack.length := by
    rw [hname, List.length_append, List.length_append]
    omega
  have hdigits : (e.name.drop archiveFront.length).take
      (e.name.length - archiveFront.length - archiveBack.length) = digits := by
    rw [hname, digits_between]
  refine (if_neg hnamed).trans ((if_neg hlength).trans ?_)
  simp only [hdigits, hread]
  exact if_neg (Int64.not_lt.mpr hn)

theorem entry_of_archiveName {n : Int64} (h : 1 ≤ n) :
    Entry.of ⟨archiveName n, false⟩ = .archive n :=
  entry_of_between rfl rfl (Integer.readDecimal_decimalInt64 n) h

/-! ## Names that are no archives -/

/-- A name that is neither an archive nor makes the listing fail. -/
def IsForeign (name : Bytes) : Prop := ∀ isDirectory, Entry.of ⟨name, isDirectory⟩ = .foreign

theorem isForeign_of_not_prefix {name : Bytes} (h : ¬ archiveFront <+: name) : IsForeign name := by
  intro isDirectory
  have hfront : archiveFront.isPrefixOf name = false := by
    rwa [← Bool.not_eq_true, List.isPrefixOf_iff_prefix]
  simp [Entry.of, hfront]

theorem isName_fileName : IsName fileName := by decide

theorem isForeign_fileName : IsForeign fileName := by
  refine isForeign_of_not_prefix fun h => ?_
  exact absurd h.length_le (by decide)

def temporaryName (n : Nat) : Bytes := "triage-history." ++ Bytes.decimal n ++ ".tmp"

theorem temporaryName_eq (n : Nat) :
    ∃ b rest, temporaryName n = ("triage-history." : Bytes) ++ b :: rest ∧
      Bytes.isDigit b = true := by
  have hdigits := Bytes.isDigit_decimal n
  unfold temporaryName
  cases hn : Bytes.decimal n with
  | nil => exact absurd hn (Bytes.decimal_ne_nil n)
  | cons b rest =>
    rw [hn] at hdigits
    exact ⟨b, rest ++ (".tmp" : Bytes), List.append_assoc .., hdigits b List.mem_cons_self⟩

theorem isName_temporaryName (n : Nat) : IsName (temporaryName n) := by
  have hlength : 2 < (temporaryName n).length := by
    have hfront : ("triage-history." : Bytes).length = 15 := by decide
    rw [temporaryName, List.length_append, List.length_append]
    omega
  have hnot : ∀ b : UInt8, b ∉ ("triage-history." : Bytes) → b ∉ (".tmp" : Bytes) →
      Bytes.isDigit b = false → b ∉ temporaryName n := by
    intro b hfront hback hdigit hb
    rw [temporaryName, List.mem_append, List.mem_append] at hb
    rcases hb with (hb | hb) | hb
    · exact hfront hb
    · rw [Bytes.isDigit_decimal n b hb] at hdigit
      cases hdigit
    · exact hback hb
  refine ⟨fun h => ?_, fun h => ?_, fun h => ?_, ?_, ?_⟩
  · simp [h] at hlength
  · rw [h] at hlength
    exact absurd hlength (by decide)
  · rw [h] at hlength
    exact absurd hlength (by decide)
  · exact hnot _ (by decide) (by decide) (by decide)
  · exact hnot _ (by decide) (by decide) (by decide)

/-- The names differ right after what all of them start with. -/
theorem not_prefix_temporaryName (n : Nat) (rest : Bytes) :
    ¬ ("triage-history." : Bytes) ++ 0x6A :: rest <+: temporaryName n := by
  obtain ⟨b, tail, hname, hdigit⟩ := temporaryName_eq n
  rw [hname, List.prefix_append_right_inj, List.cons_prefix_cons]
  rintro ⟨rfl, -⟩
  exact absurd hdigit (by decide)

theorem isForeign_temporaryName (n : Nat) : IsForeign (temporaryName n) :=
  isForeign_of_not_prefix (not_prefix_temporaryName n "sonl.")

theorem temporaryName_ne (n : Nat) : temporaryName n ≠ fileName := fun h =>
  not_prefix_temporaryName n "sonl" (h ▸ List.prefix_refl _)

theorem archiveName_ne (n : Int64) : archiveName n ≠ fileName := fun h => by
  have hlength := congrArg List.length h
  have hfront : archiveFront.length = fileName.length + 1 := by decide
  rw [archiveName, List.length_append, List.length_append] at hlength
  omega

theorem archiveName_ne_temporaryName (n : Int64) (k : Nat) : archiveName n ≠ temporaryName k :=
  fun h => not_prefix_temporaryName k "sonl."
    (h ▸ (List.prefix_append ..).trans (List.prefix_append ..))

/-! ## Archives of a folder -/

variable {t t' : Tree} {dir name : Bytes} {place : NodePath} {c c' : Bytes → Option Node}

/-- The archives of a directory, in the order of their names. -/
def archivesIn (t : Tree) (dir : Bytes) (place : NodePath) : List Archive :=
  (t.entries place).filterMap (archiveOf? dir)

theorem archivesAmong_entries (t : Tree) (dir : Bytes) (place : NodePath) :
    archivesAmong dir (t.entries place) =
      if (t.entries place).any fun e => Entry.of e == .overlapping then none
      else some (ascending (archivesIn t dir place)) := rfl

theorem archiveOf?_eq_some {e : DirectoryEntry} : archiveOf? dir e = some a ↔
    Entry.of e = .archive a.number ∧ a.path = Path.join [dir, e.name] := by
  unfold archiveOf?
  split
  · next n hn =>
    rw [hn]
    constructor
    · intro h
      cases h
      exact ⟨rfl, rfl⟩
    · rintro ⟨h, hpath⟩
      cases h
      rw [← hpath]
  · next hnot => simpa using fun h => absurd h (hnot _)

/-- Different names have different paths. -/
theorem join_inj {x y : Bytes} (hdir : dir ≠ []) (hx : IsName x) (hy : IsName y)
    (h : Path.join [dir, x] = Path.join [dir, y]) : x = y := by
  have hclean := Path.isClean_parts dir
  have hparts := congrArg Path.parts h
  rw [Path.join_name hdir hx, Path.join_name hdir hy, Path.parts_render (hclean.concat hx),
    Path.parts_render (hclean.concat hy)] at hparts
  simpa using hparts

theorem archiveOf?_inj {e e' : DirectoryEntry} (hdir : dir ≠ []) (h : archiveOf? dir e = some a)
    (h' : archiveOf? dir e' = some a) : e = e' := by
  rw [archiveOf?_eq_some] at h h'
  have hname := join_inj hdir (isName_of_archive h.1) (isName_of_archive h'.1) (h.2.symm.trans h'.2)
  have hisDirectory := (entry_of_archive h.1).1.trans (entry_of_archive h'.1).1.symm
  cases e
  cases e'
  simp_all

theorem nodup_archivesIn (h : t.Folder dir place c) : (archivesIn t dir place).Nodup :=
  (Tree.nodup_entries h.distinct).filterMap fun _ _ _ he he' =>
    archiveOf?_inj h.opens.ne_nil he he'

theorem mem_archivesIn (h : t.Folder dir place c) : a ∈ archivesIn t dir place ↔
    ∃ name id data mode, c name = some (.file id data mode) ∧
      Entry.of ⟨name, false⟩ = .archive a.number ∧ a.path = Path.join [dir, name] := by
  simp only [archivesIn, List.mem_filterMap, archiveOf?_eq_some, h.mem_entries]
  constructor
  · rintro ⟨e, he, harchive, hpath⟩
    have hfile := (entry_of_archive harchive).1
    obtain ⟨name, isDirectory⟩ := e
    cases hfile
    obtain ⟨node, hnode, hisDirectory⟩ := Option.map_eq_some_iff.mp he
    cases node with
    | file id data mode => exact ⟨name, id, data, mode, hnode, harchive, hpath⟩
    | directory mode => cases hisDirectory
  · rintro ⟨name, id, data, mode, hnode, harchive, hpath⟩
    exact ⟨⟨name, false⟩, by rw [hnode]; rfl, harchive, hpath⟩

/-- Names that stand for the same nodes are listed the same way. -/
theorem filter_entries (h : t.Folder dir place c) (h' : t'.Folder dir place c') {p : Bytes → Bool}
    (hsame : ∀ n, p n = true → c' n = c n) :
    (t'.entries place).filter (p ·.name) = (t.entries place).filter (p ·.name) := by
  refine List.Perm.eq_of_pairwise ?_ ((t'.sorted_entries place).filter _)
    ((t.sorted_entries place).filter _) ?_
  · intro x y hx hy hxy hyx
    have hname : x.name = y.name := List.le_antisymm hxy hyx
    rw [List.mem_filter] at hx hy
    have hx' := h'.mem_entries.mp hx.1
    have hy' := h.mem_entries.mp hy.1
    rw [hsame _ hx.2, hname, hy', Option.some.injEq] at hx'
    cases x
    cases y
    simp_all
  · rw [List.perm_ext_iff_of_nodup ((Tree.nodup_entries h'.distinct).filter _)
      ((Tree.nodup_entries h.distinct).filter _)]
    intro e
    rw [List.mem_filter, List.mem_filter, h.mem_entries, h'.mem_entries]
    refine and_congr_left fun hp => ?_
    rw [hsame _ hp]

/-- A change at one name leaves the archives of other names as they are. -/
theorem filter_archivesIn (h : t.Folder dir place c) (h' : t'.Folder dir place c')
    (hname : IsName name) (hsame : ∀ n, n ≠ name → c' n = c n) :
    (archivesIn t' dir place).filter (·.path != Path.join [dir, name]) =
      (archivesIn t dir place).filter (·.path != Path.join [dir, name]) := by
  have hfilter : ∀ t : Tree, (archivesIn t dir place).filter (·.path != Path.join [dir, name]) =
      ((t.entries place).filter (·.name != name)).filterMap (archiveOf? dir) := by
    intro t
    rw [archivesIn, List.filter_filterMap, List.filterMap_filter]
    refine congrArg (List.filterMap · (t.entries place)) (funext fun e => ?_)
    cases he : archiveOf? dir e with
    | none => simp
    | some a =>
      obtain ⟨harchive, hpath⟩ := archiveOf?_eq_some.mp he
      have hiff : a.path = Path.join [dir, name] ↔ e.name = name := by
        rw [hpath]
        exact ⟨join_inj h.opens.ne_nil (isName_of_archive harchive) hname, fun h => by rw [h]⟩
      by_cases hpath' : e.name = name
      · simp [hpath', hiff.mpr hpath']
      · simp [hpath', mt hiff.mp hpath']
  rw [hfilter, hfilter]
  exact congrArg _ (filter_entries h h' fun n hn => hsame n (bne_iff_ne.mp hn))

theorem filter_path_eq_self (h : t.Folder dir place c) (hname : IsName name)
    (hnot : ∀ id data mode, c name = some (.file id data mode) →
      Entry.of ⟨name, false⟩ = .foreign) :
    (archivesIn t dir place).filter (·.path != Path.join [dir, name]) = archivesIn t dir place := by
  rw [List.filter_eq_self]
  intro a ha
  obtain ⟨name', id, data, mode, hfile, harchive, hpath⟩ := (mem_archivesIn h).mp ha
  rw [bne_iff_ne, hpath]
  intro hjoin
  have hsame : name' = name := join_inj h.opens.ne_nil (isName_of_archive harchive) hname hjoin
  rw [hsame] at hfile harchive
  rw [hnot id data mode hfile] at harchive
  cases harchive

theorem filter_ne_eq (h : t.Folder dir place c) {n : Int64}
    (harchive : Entry.of ⟨name, false⟩ = .archive n) :
    (archivesIn t dir place).filter (· != ⟨n, Path.join [dir, name]⟩) =
      (archivesIn t dir place).filter (·.path != Path.join [dir, name]) := by
  refine List.filter_congr fun a ha => ?_
  obtain ⟨name', id, data, mode, -, harchive', hpath⟩ := (mem_archivesIn h).mp ha
  by_cases hsame : a.path = Path.join [dir, name]
  · have hname : name' = name := join_inj h.opens.ne_nil (isName_of_archive harchive')
      (isName_of_archive harchive) (hpath.symm.trans hsame)
    rw [hname, harchive] at harchive'
    cases a
    simp_all
  · have hne : a ≠ ⟨n, Path.join [dir, name]⟩ := fun ha => hsame (by rw [ha])
    rw [bne_iff_ne.mpr hsame, bne_iff_ne.mpr hne]

open Classical in
theorem archivesIn_of_foreign (h : t.Folder dir place c) (h' : t'.Folder dir place c')
    (hsame : ∀ n, ¬ IsForeign n → c' n = c n) :
    archivesIn t' dir place = archivesIn t dir place := by
  have hfilter : ∀ t : Tree, archivesIn t dir place =
      ((t.entries place).filter fun e => decide (¬ IsForeign e.name)).filterMap
        (archiveOf? dir) := by
    intro t
    rw [archivesIn, List.filterMap_filter]
    refine congrArg (List.filterMap · (t.entries place)) (funext fun e => ?_)
    by_cases hforeign : IsForeign e.name
    · simp [hforeign, archiveOf?, hforeign e.isDirectory]
    · simp [hforeign]
  rw [hfilter, hfilter]
  exact congrArg _ (filter_entries h h' fun n hn => hsame n (of_decide_eq_true hn))

theorem archivesIn_of_removed (h : t.Folder dir place c) (h' : t'.Folder dir place c') {n : Int64}
    (harchive : Entry.of ⟨name, false⟩ = .archive n) (hgone : c' name = none)
    (hsame : ∀ n, n ≠ name → c' n = c n) :
    archivesIn t' dir place = (archivesIn t dir place).filter (· != ⟨n, Path.join [dir, name]⟩) := by
  have hname : IsName name := isName_of_archive harchive
  rw [filter_ne_eq h harchive, ← filter_archivesIn h h' hname hsame]
  refine (filter_path_eq_self h' hname fun id data mode hfile => ?_).symm
  rw [hgone] at hfile
  cases hfile

theorem archivesIn_of_added (h : t.Folder dir place c) (h' : t'.Folder dir place c') {n : Int64}
    (harchive : Entry.of ⟨name, false⟩ = .archive n) (hnone : c name = none)
    {id : FileId} {data : Bytes} {mode : Nat} (hfile : c' name = some (.file id data mode))
    (hsame : ∀ n, n ≠ name → c' n = c n) :
    (archivesIn t' dir place).filter (· != ⟨n, Path.join [dir, name]⟩) = archivesIn t dir place ∧
      ⟨n, Path.join [dir, name]⟩ ∈ archivesIn t' dir place := by
  have hname : IsName name := isName_of_archive harchive
  refine ⟨?_, (mem_archivesIn h').mpr ⟨name, id, data, mode, hfile, harchive, rfl⟩⟩
  rw [filter_ne_eq h' harchive, filter_archivesIn h h' hname hsame]
  refine filter_path_eq_self h hname fun id data mode hfile => ?_
  rw [hnone] at hfile
  cases hfile

end History

end ScanTriage
