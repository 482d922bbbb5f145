import ScanTriage.Proofs.Text.Search
import ScanTriage.Proofs.Triage.PathSpelling

/-!
# Vendored files

Whether a file is somebody else's is told by the names of the directories that
it lies in (`isVendor_iff`). The markers are looked for in a text, but they
enclose their names by slashes, and so does a rooted path
(`cons_normalize`). Names without slashes between slashes are found as a whole
or not at all (`infix_slashed_iff`).
-/

namespace ScanTriage

namespace SourcePath

/-! ## Names between slashes -/

section Slashed

open Bytes (slash)

variable {a b x y text : Bytes} {names parts : List Bytes}

def slashed (names : List Bytes) : Bytes := names.flatMap (slash :: ·)

theorem slashed_cons (name : Bytes) (names : List Bytes) :
    slashed (name :: names) = slash :: (name ++ slashed names) := rfl

theorem exists_slashed_append (names : List Bytes) :
    ∃ more, slashed names ++ [slash] = slash :: more := by
  cases names with
  | nil => exact ⟨[], rfl⟩
  | cons name names => exact ⟨_, rfl⟩

theorem eq_slash_of_mem_head? (names : List Bytes) : ∀ c ∈ (slashed names).head?, c = slash := by
  cases names with
  | nil => simp [slashed]
  | cons name names => simp [slashed_cons]

/-- A slash ends a name. -/
theorem prefix_append_iff (ha : slash ∉ a) (hb : slash ∉ b) (hy : ∀ c ∈ y.head?, c = slash) :
    a ++ slash :: x <+: b ++ y ↔ a = b ∧ slash :: x <+: y := by
  induction a generalizing b with
  | nil =>
    cases b with
    | nil => simp
    | cons c b =>
      have hc : slash ≠ c := fun h => hb (h ▸ List.mem_cons_self)
      simp [hc]
  | cons d a ih =>
    obtain ⟨hd, ha⟩ := not_or.mp (List.mem_cons.not.mp ha)
    cases b with
    | nil =>
      cases y with
      | nil => simp
      | cons c y =>
        obtain rfl : c = slash := hy c rfl
        simp [Ne.symm hd]
    | cons c b =>
      obtain ⟨-, hb⟩ := not_or.mp (List.mem_cons.not.mp hb)
      rw [List.cons_append, List.cons_append, List.cons_prefix_cons, ih ha hb, List.cons.injEq,
        and_assoc]

theorem prefix_slashed_iff (hnames : ∀ n ∈ names, slash ∉ n) (hparts : ∀ p ∈ parts, slash ∉ p)
    (hne : parts ≠ []) :
    slashed names ++ [slash] <+: slashed parts ↔ names <+: parts.dropLast := by
  induction names generalizing parts with
  | nil =>
    obtain ⟨part, parts, rfl⟩ := List.exists_cons_of_ne_nil hne
    simp [slashed]
  | cons name names ih =>
    obtain ⟨part, parts, rfl⟩ := List.exists_cons_of_ne_nil hne
    obtain ⟨hname, hnames⟩ := List.forall_mem_cons.mp hnames
    obtain ⟨hpart, hparts⟩ := List.forall_mem_cons.mp hparts
    obtain ⟨more, hmore⟩ := exists_slashed_append names
    rw [slashed_cons, slashed_cons, List.cons_append, List.append_assoc, List.cons_prefix_cons,
      hmore, prefix_append_iff hname hpart (eq_slash_of_mem_head? parts), ← hmore]
    by_cases hlast : parts = []
    · subst hlast
      simp [slashed]
    · rw [ih hnames hparts hlast, List.dropLast_cons_of_ne_nil hlast, List.cons_prefix_cons]
      simp

/-- A text that starts with a slash does not start in a name. -/
theorem infix_append_iff (hb : slash ∉ b) : slash :: x <:+: b ++ text ↔ slash :: x <:+: text := by
  induction b with
  | nil => rfl
  | cons c b ih =>
    obtain ⟨hc, hb⟩ := not_or.mp (List.mem_cons.not.mp hb)
    rw [List.cons_append, List.infix_cons_iff, List.cons_prefix_cons, ih hb]
    simp [hc]

/-- Names between slashes are found as a whole, in front of another one. -/
theorem infix_slashed_iff (hnames : ∀ n ∈ names, slash ∉ n) (hparts : ∀ p ∈ parts, slash ∉ p)
    (hne : parts ≠ []) :
    slashed names ++ [slash] <:+: slashed parts ↔ names <:+: parts.dropLast := by
  obtain ⟨more, hmore⟩ := exists_slashed_append names
  induction parts with
  | nil => exact absurd rfl hne
  | cons part parts ih =>
    have hprefix := prefix_slashed_iff hnames hparts hne
    obtain ⟨hpart, hparts⟩ := List.forall_mem_cons.mp hparts
    rw [slashed_cons] at hprefix ⊢
    rw [List.infix_cons_iff, hprefix, hmore, infix_append_iff hpart, ← hmore]
    by_cases hlast : parts = []
    · subst hlast
      simp [slashed]
    · rw [ih hparts hlast, List.dropLast_cons_of_ne_nil hlast, List.infix_cons_iff]

end Slashed

/-! ## Paths by their components -/

/-- What stands between the separators of a path. The last component is the name
of the file. -/
def components (path : Bytes) : List Bytes := path.splitOnP fun b => decide (IsSeparator b)

variable {p q path : Bytes}

theorem components_ne_nil (path : Bytes) : components path ≠ [] := List.splitOnP_ne_nil _ path

theorem components_cons (b : UInt8) (path : Bytes) : components (b :: path) =
    if IsSeparator b then [] :: components path
    else (components path).modifyHead (b :: ·) := by
  rw [components, List.splitOnP_cons_eq_if_modifyHead]
  simp only [decide_eq_true_eq]
  rfl

theorem slash_notMem_components (path : Bytes) : ∀ c ∈ components path, Bytes.slash ∉ c := by
  induction path with
  | nil => simp [components]
  | cons b path ih =>
    rw [components_cons]
    split
    · exact List.forall_mem_cons.mpr ⟨List.not_mem_nil, ih⟩
    · next hb =>
      obtain ⟨first, rest, hcomponents⟩ := List.exists_cons_of_ne_nil (components_ne_nil path)
      rw [hcomponents] at ih ⊢
      obtain ⟨hfirst, hrest⟩ := List.forall_mem_cons.mp ih
      refine List.forall_mem_cons.mpr ⟨?_, hrest⟩
      rintro (_ | ⟨_, hmem⟩)
      · exact hb (.inl rfl)
      · exact hfirst hmem

/-- A normalized path is its components with slashes. -/
theorem cons_normalize (path : Bytes) :
    Bytes.slash :: normalize path = slashed (components path) := by
  induction path with
  | nil => rfl
  | cons b path ih =>
    rw [normalize_eq_map, List.map_cons, ← normalize_eq_map, components_cons]
    split
    · next hb => rw [normalizeByte_separator hb, slashed_cons, List.nil_append, ih]
    · next hb =>
      obtain ⟨first, rest, hcomponents⟩ := List.exists_cons_of_ne_nil (components_ne_nil path)
      have hbyte : normalizeByte b = b := by
        have hne : b ≠ Bytes.backslash := fun h => hb (.inr h)
        simp [normalizeByte, hne]
      rw [hcomponents, slashed_cons] at ih
      rw [hcomponents, List.modifyHead_cons, slashed_cons, hbyte, (List.cons.inj ih).2]
      rfl

/-- A name behind a slash is not found at the slash in front of another one. -/
theorem infix_rooted_iff {c : UInt8} {rest : Bytes} (hc : c ≠ Bytes.slash) :
    Bytes.slash :: c :: rest <:+: rooted p ↔ Bytes.slash :: c :: rest <:+: Bytes.slash :: p := by
  unfold rooted
  split
  · next hhead =>
    obtain ⟨p, rfl⟩ : ∃ q, p = Bytes.slash :: q := List.head?_eq_some_iff.mp (by simpa using hhead)
    refine Iff.symm ?_
    rw [List.infix_cons_iff, List.cons_prefix_cons, List.cons_prefix_cons]
    simp [hc]
  · rfl

/-! ## Dependencies -/

/-- The names of the directories that hold other people's code, from one to the
next below it. -/
def vendorFolders : List (List Bytes) :=
  [["vendor"], ["vendor_prefixed"], ["node_modules"], ["assets", "lib"]]

theorem vendorMarkers_eq :
    vendorMarkers = vendorFolders.map fun names => slashed names ++ [Bytes.slash] := by decide

theorem vendorFolders_names : ∀ names ∈ vendorFolders,
    (∀ n ∈ names, Bytes.slash ∉ n) ∧ ∀ first ∈ names.head?, first ≠ [] := by decide

theorem exists_marker {names : List Bytes} (h : names ∈ vendorFolders) :
    ∃ c rest, slashed names ++ [Bytes.slash] = Bytes.slash :: c :: rest ∧ c ≠ Bytes.slash := by
  obtain ⟨hslash, hfirst⟩ := vendorFolders_names names h
  match names with
  | [] => exact absurd h (by decide)
  | [] :: _ => exact absurd rfl (hfirst [] rfl)
  | (c :: name) :: names =>
    refine ⟨c, _, rfl, ?_⟩
    rintro rfl
    exact hslash _ List.mem_cons_self List.mem_cons_self

theorem isVendor_iff_folders : isVendor path = true ↔
    ∃ names ∈ vendorFolders, names <:+: (components path).dropLast := by
  have hfolder : ∀ names ∈ vendorFolders, (slashed names ++ [Bytes.slash] <:+:
      rooted (normalize path) ↔ names <:+: (components path).dropLast) := by
    intro names hnames
    obtain ⟨c, rest, hmarker, hc⟩ := exists_marker hnames
    rw [hmarker, infix_rooted_iff hc, ← hmarker, cons_normalize,
      infix_slashed_iff (vendorFolders_names names hnames).1 (slash_notMem_components path)
        (components_ne_nil path)]
  simp only [isVendor, vendorMarkers_eq, List.any_map, List.any_eq_true, Function.comp_apply,
    Bytes.occurs_iff]
  exact exists_congr fun names => and_congr_right fun h => hfolder names h

theorem singleton_infix_iff {α : Type} {x : α} {l : List α} : [x] <:+: l ↔ x ∈ l := by
  refine ⟨fun h => h.subset List.mem_cons_self, fun h => ?_⟩
  obtain ⟨before, after, rfl⟩ := List.append_of_mem h
  exact ⟨before, after, by simp⟩

/-- A directory at the root that is no dependency's makes no difference below it. -/
theorem isVendor_below {root : Bytes} {separator : UInt8} (hroot : ∀ b ∈ root, ¬ IsSeparator b)
    (hseparator : IsSeparator separator)
    (hname : ∀ names ∈ vendorFolders, names.head? ≠ some root) :
    isVendor (root ++ separator :: path) = isVendor path := by
  have hcomponents : components (root ++ separator :: path) = root :: components path := by
    rw [components, List.splitOnP_append_cons _ _ (by simpa using hseparator),
      List.splitOnP_eq_singleton (by simpa using hroot)]
    rfl
  rw [Bool.eq_iff_iff, isVendor_iff_folders, isVendor_iff_folders, hcomponents,
    List.dropLast_cons_of_ne_nil (components_ne_nil path)]
  refine exists_congr fun names => and_congr_right fun h => ?_
  rw [List.infix_cons_iff]
  refine or_iff_right fun hprefix => ?_
  have hne : names ≠ [] := by
    rintro rfl
    exact absurd h (by decide)
  obtain ⟨first, rest, rfl⟩ := List.exists_cons_of_ne_nil hne
  exact hname _ h (congrArg some (List.cons_prefix_cons.mp hprefix).1)

/-- A file is somebody else's just where one of the directories that it lies in
is a dependency's by its whole name, or is `lib` right below `assets`. It does
not matter whether the path starts at a root or a drive, nor which separators it
is written with. -/
theorem isVendor_iff (path : Bytes) :
    (isVendor path = true ↔
      (∃ name ∈ (components path).dropLast,
        name = ("vendor" : Bytes) ∨ name = ("vendor_prefixed" : Bytes) ∨
          name = ("node_modules" : Bytes)) ∨
      [("assets" : Bytes), "lib"] <:+: (components path).dropLast) ∧
    (∀ root separator, root = [] ∨ (∃ drive, ¬ IsSeparator drive ∧ root = [drive, Bytes.colon]) →
      IsSeparator separator → isVendor (root ++ separator :: path) = isVendor path) ∧
    ∀ spelled, Reseparated path spelled → isVendor spelled = isVendor path := by
  refine ⟨?_, ?_, ?_⟩
  · rw [isVendor_iff_folders]
    simp only [vendorFolders, List.mem_cons, List.not_mem_nil, or_false, exists_eq_or_imp,
      exists_eq_left, singleton_infix_iff]
    grind
  · intro root separator hroot hseparator
    have hlength : ∀ names ∈ vendorFolders, ∀ first ∈ names.head?, 2 < first.length := by decide
    refine isVendor_below ?_ hseparator fun names hnames hfirst => ?_
    · rcases hroot with rfl | ⟨drive, hdrive, rfl⟩
      · simp
      · have hcolon : ¬ IsSeparator Bytes.colon := by decide
        simp [hdrive, hcolon]
    · have hlong := hlength names hnames root hfirst
      rcases hroot with rfl | ⟨drive, -, rfl⟩ <;> simp at hlong
  · intro spelled hspelled
    rw [isVendor, isVendor, normalize_eq_of_reseparated hspelled]

/-- A script of a package, below a directory whose name is no text. -/
def bundledScript : Bytes := strayPath "site\\" "/node_modules\\x.js"

theorem isVendor_iff_bundledScript :
    Reseparated bundledScript (strayPath "site/" "\\node_modules/x.js") ∧
      isVendor bundledScript = true ∧
      isVendor ([0x43, Bytes.colon] ++ Bytes.backslash :: bundledScript) = isVendor bundledScript ∧
      isVendor (strayPath "site/" "\\node_modules/x.js") = isVendor bundledScript ∧
      isVendor (strayPath "vendors\\assets/" "/lib/vendor") = false := by
  have hspelled : Reseparated bundledScript (strayPath "site/" "\\node_modules/x.js") := by decide
  obtain ⟨hnames, hrooted, hseparators⟩ := isVendor_iff bundledScript
  refine ⟨hspelled, hnames.mpr (.inl ⟨"node_modules", by decide, .inr (.inr rfl)⟩),
    hrooted _ _ (.inr ⟨0x43, by decide, rfl⟩) (.inr rfl), hseparators _ hspelled, ?_⟩
  rw [Bool.eq_false_iff, ne_eq, (isVendor_iff _).1]
  decide

end SourcePath

end ScanTriage
