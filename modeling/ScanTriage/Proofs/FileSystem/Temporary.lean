import Mathlib.Data.List.Perm.Subperm
import ScanTriage.Proofs.FileSystem.Sound
import ScanTriage.Proofs.Number.Numerals

/-!
# Temporary files

A temporary file is made beside a file, under a name that nothing has
(`exists_temporary`), and put in its place. `Along` says what holds of every
tree that a program meets, so that other programs may come in between.
-/

namespace ScanTriage

namespace Path

variable {name : Bytes} {rooted : Bool} {ps : List Bytes}

theorem IsClean.of_concat (h : IsClean rooted (ps ++ [name])) : IsClean rooted ps where
  settled := by
    have hsettled := h.settled
    rw [List.reverse_append, List.reverse_singleton] at hsettled
    exact hsettled.2
  no_slash p hp := h.no_slash p (List.mem_append_left _ hp)

theorem base_render (rooted : Bool) (ps : List Bytes) (hname : IsName name) :
    base (render rooted (ps ++ [name])) = name := by
  have hends : ∃ front, render rooted (ps ++ [name]) = front ++ name ∧
      ∀ b ∈ front.getLast?, b = Bytes.slash := by
    by_cases hps : ps = []
    · subst hps
      cases rooted with
      | true => exact ⟨[Bytes.slash], by simp [render, Bytes.join_singleton], by simp⟩
      | false => exact ⟨[], by simp [render, Bytes.join_singleton], by simp⟩
    · exact ⟨render rooted ps ++ [Bytes.slash], by simp [render_concat hps], by simp⟩
  obtain ⟨front, hrender, hslash⟩ := hends
  have hpos : ∀ b ∈ name.reverse, (b != Bytes.slash) = true := by
    intro b hb
    have hne : b ≠ Bytes.slash := fun h => hname.no_slash (h ▸ List.mem_reverse.mp hb)
    simpa using hne
  have hreverse : (name.reverse ++ front.reverse).dropWhile (· == Bytes.slash) =
      name.reverse ++ front.reverse := by
    have hne : name.reverse ≠ [] := by simpa using hname.ne_nil
    cases hcons : name.reverse with
    | nil => exact absurd hcons hne
    | cons b rest =>
      have hb := hpos b (by simp [hcons])
      rw [List.cons_append, List.dropWhile_cons_of_neg (by simpa using hb)]
  have htake : (name.reverse ++ front.reverse).takeWhile (· != Bytes.slash) = name.reverse := by
    rw [List.takeWhile_append_of_pos hpos]
    cases hfront : front.reverse with
    | nil => simp
    | cons b rest =>
      have hb : b = Bytes.slash := hslash b (by rw [← List.head?_reverse, hfront]; rfl)
      simp [hb]
  rw [base, hrender, List.reverse_append, hreverse]
  split
  · next hnil => simp [hname.ne_nil] at hnil
  · rw [htake, List.reverse_reverse]

end Path

namespace Tree

open ScanTriage.Path (IsName IsClean render parts)

variable {t t' : Tree} {dir name path : Bytes} {place q : NodePath}

/-! ## A file in its directory -/

/-- The directory of a file, its name there, and where both are. -/
structure StandsIn (t : Tree) (path dir name : Bytes) (place : NodePath) : Prop where
  opens : t.Opens dir place
  isName : IsName name
  hasRoom : HasRoom dir name
  join : path = Path.join [dir, name]
  directory : Path.directory path = dir
  base : Path.base path = name

/-- A cleaned path to a file is a name in a directory. -/
theorem IsProper.standsIn (h : t.IsProper) (hclean : IsCleaned path)
    (hresolve : t.resolve path = .ok q) (hnot : ¬ t.IsDirectoryAt q) :
    ∃ dir name place, t.StandsIn path dir name place ∧ q = place ++ [name] := by
  have hparts := Path.isClean_parts path
  obtain ⟨⟨hnul, hne, hlength⟩, hwalk⟩ := resolve_eq_ok.mp hresolve
  have hpath : path = render (Path.isAbsolute path) (parts path) := by
    rw [← Path.clean_eq_render, hclean hne]
  have hstart := reaches_startOf h.working path
  have hwalk' := walk_parts (fun hrooted => if_pos hrooted) hwalk
  obtain ⟨front, name, hconcat⟩ : ∃ front name, parts path = front ++ [name] := by
    rcases List.eq_nil_or_concat (parts path) with hnil | ⟨front, name, hconcat⟩
    · rw [hnil] at hwalk'
      cases hwalk'
      exact absurd hstart.isDirectoryAt hnot
    · exact ⟨front, name, hconcat.trans (List.concat_eq_append ..)⟩
  rw [hconcat] at hwalk' hparts hpath
  obtain ⟨place, hfront, hlast⟩ := walk_append_eq_ok.mp hwalk'
  obtain ⟨hdir, ⟨-, rfl⟩ | ⟨-, rfl⟩ | ⟨hhere, habove, hshort, rfl⟩⟩ := walk_singleton_eq_ok.mp hlast
  · exact absurd hdir hnot
  · exact absurd (reaches_of_walk hstart hfront hdir _ (List.dropLast_prefix _)) hnot
  have hname : IsName name := by
    refine ⟨hparts.ne_nil (by simp), hhere, habove, hparts.no_slash name (by simp), fun hzero => ?_⟩
    exact hnul (Path.mem_of_mem_parts (by rw [hconcat]; simp) 0 hzero)
  have hcleanDir := hparts.of_concat
  have hdirNe := Path.render_ne_nil hcleanDir
  have hjoin : path = Path.join [render (Path.isAbsolute path) front, name] := by
    rw [Path.join_name hdirNe hname, Path.isAbsolute_render hcleanDir, Path.parts_render hcleanDir]
    exact hpath
  have hlengthDir := Path.length_clean_le hdirNe hname
  rw [Path.clean_render hcleanDir, ← hjoin] at hlengthDir
  refine ⟨render (Path.isAbsolute path) front, name, place, ⟨⟨h.working, ?_, hdir⟩, hname,
    ⟨by rwa [← hjoin], hshort⟩, hjoin, ?_, ?_⟩, rfl⟩
  · have hnulDir : 0 ∉ render (Path.isAbsolute path) front :=
      nul_not_mem_render fun p hp hzero =>
        hnul (Path.mem_of_mem_parts (by rw [hconcat]; exact List.mem_append_left _ hp) 0 hzero)
    rw [resolve_of_fits hnulDir hdirNe (by omega), startOf_render hcleanDir,
      components_render hcleanDir]
    split
    · next hnil =>
      rw [hnil] at hfront
      cases hfront
      exact walk_singleton_eq_ok.mpr ⟨hdir, .inl ⟨rfl, rfl⟩⟩
    · exact hfront
  · have hdirectory := Path.directory_join hdirNe hname
    rwa [← hjoin, Path.clean_render hcleanDir] at hdirectory
  · have hbase := Path.base_render (Path.isAbsolute path) front hname
    rwa [← hpath] at hbase

/-! ## An unused name -/

def temporaryName (front : Bytes) (n : Nat) : Bytes :=
  front ++ Bytes.decimal (1000000000 + n) ++ ".tmp"

theorem temporaryName_inj {front : Bytes} {m n : Nat}
    (h : temporaryName front m = temporaryName front n) : m = n := by
  have hdecimal := List.append_cancel_left (List.append_cancel_right h)
  have hvalue := congrArg (Bytes.digitsValue 0) hdecimal
  rw [Bytes.digitsValue_decimal, Bytes.digitsValue_decimal] at hvalue
  omega

theorem isName_temporaryName (hname : IsName name) (n : Nat) :
    IsName (temporaryName (name ++ ".") n) := by
  have hlength : 2 < (temporaryName (name ++ ".") n).length := by
    have hback : (".tmp" : Bytes).length = 4 := by decide
    rw [temporaryName, List.length_append]
    omega
  have hnot : ∀ b : UInt8, b ∉ name → b ∉ ("." : Bytes) → b ∉ (".tmp" : Bytes) →
      Bytes.isDigit b = false → b ∉ temporaryName (name ++ ".") n := by
    intro b hfront hdot hback hdigit hb
    simp only [temporaryName, List.mem_append] at hb
    rcases hb with ((hb | hb) | hb) | hb
    · exact hfront hb
    · exact hdot hb
    · rw [Bytes.isDigit_decimal _ b hb] at hdigit
      cases hdigit
    · exact hback hb
  refine ⟨fun h => ?_, fun h => ?_, fun h => ?_, ?_, ?_⟩
  · simp [h] at hlength
  · rw [h] at hlength
    exact absurd hlength (by decide)
  · rw [h] at hlength
    exact absurd hlength (by decide)
  · exact hnot _ hname.no_slash (by decide) (by decide) (by decide)
  · exact hnot _ hname.no_nul (by decide) (by decide) (by decide)

/-- Some name for a temporary file is not in use, and it is the one taken: there
are more names to try than nodes. -/
theorem Opens.exists_temporary (h : t.Opens dir place) (hname : IsName name) :
    ∃ n, t.temporaryPath dir (name ++ ".") =
        Path.join [dir, temporaryName (name ++ ".") n] ∧
      (HasRoom dir (temporaryName (name ++ ".") n) →
        t.find? (place ++ [temporaryName (name ++ ".") n]) = none) := by
  have hpath : t.temporaryPath dir (name ++ ".") =
      Path.join [dir, temporaryName (name ++ ".")
        (((List.range t.nodes.length).find? fun n =>
          t.isUnused (Path.join [dir, temporaryName (name ++ ".") n])).getD t.nodes.length)] := rfl
  rw [hpath]
  refine ⟨_, rfl, fun hroom => ?_⟩
  generalize hfound : (List.range t.nodes.length).find? _ = found? at hroom ⊢
  have hlookup (n : Nat) (hroom : HasRoom dir (temporaryName (name ++ ".") n)) :=
    lookup_of_resolve ((h.resolve_join (isName_temporaryName hname n)).trans (if_pos hroom))
  cases found? with
  | some n =>
    have hunused := List.find?_some hfound
    rw [Option.getD_some] at hroom ⊢
    rw [isUnused, hlookup n hroom] at hunused
    cases hfind : t.find? (place ++ [temporaryName (name ++ ".") n]) with
    | none => rfl
    | some node =>
      rw [hfind] at hunused
      cases hunused
  | none =>
    rw [List.find?_eq_none] at hfound
    rw [Option.getD_none] at hroom ⊢
    by_contra hused
    have hall : ∀ n ∈ List.range (t.nodes.length + 1),
        place ++ [temporaryName (name ++ ".") n] ∈ t.nodes.map Prod.fst := by
      intro n hn
      have hsome : t.find? (place ++ [temporaryName (name ++ ".") n]) ≠ none := by
        rcases Nat.lt_succ_iff_lt_or_eq.mp (List.mem_range.mp hn) with hlt | rfl
        · intro hnone
          apply hfound n (List.mem_range.mpr hlt)
          by_cases hroom' : HasRoom dir (temporaryName (name ++ ".") n)
          · rw [isUnused, hlookup n hroom', hnone]
          · rw [isUnused, lookup_of_error ((h.resolve_join (isName_temporaryName hname n)).trans
              (if_neg hroom'))]
        · exact hused
      obtain ⟨node, hnode⟩ := Option.ne_none_iff_exists'.mp hsome
      exact List.mem_map.mpr ⟨_, mem_nodes_of_find? (by simp) hnode, rfl⟩
    have hdistinct : ((List.range (t.nodes.length + 1)).map fun n =>
        place ++ [temporaryName (name ++ ".") n]).Nodup := by
      refine List.nodup_range.map fun m n heq => ?_
      exact temporaryName_inj (by simpa using heq)
    have hsubset : ((List.range (t.nodes.length + 1)).map fun n =>
        place ++ [temporaryName (name ++ ".") n]) ⊆ t.nodes.map Prod.fst := by
      intro p hp
      obtain ⟨n, hn, rfl⟩ := List.mem_map.mp hp
      exact hall n hn
    have hle := (List.subperm_of_subset hdistinct hsubset).length_le
    simp only [List.length_map, List.length_range] at hle
    omega

theorem temporaryName_ne (name : Bytes) (n : Nat) : temporaryName (name ++ ".") n ≠ name := by
  intro h
  have hlength := congrArg List.length h
  have hback : (".tmp" : Bytes).length = 4 := by decide
  simp only [temporaryName, List.length_append] at hlength
  omega

/-! ## Beside a file -/

theorem Opens.lookup_join (h : t.Opens dir place) (hname : IsName name) (hroom : HasRoom dir name)
    {node : Node} (hfind : t.find? (place ++ [name]) = some node) :
    t.lookup (Path.join [dir, name]) = .ok (place ++ [name], node) := by
  rw [lookup_of_resolve ((h.resolve_join hname).trans (if_pos hroom)), hfind]

/-- A temporary file is refused, or it is new. -/
theorem Opens.writeTemporaryAt (h : t.Opens dir place) (hname : IsName name) (data : Bytes) :
    (∃ fault, t.writeTemporaryAt dir (name ++ ".") data = (.error fault, t)) ∨
      ∃ other, IsName other ∧ other ≠ name ∧ HasRoom dir other ∧
        t.find? (place ++ [other]) = none ∧
        t.writeTemporaryAt dir (name ++ ".") data =
          (.ok (Path.join [dir, other]), (t.addFile (place ++ [other]) data 0o600).2) := by
  obtain ⟨n, hpath, hunused⟩ := h.exists_temporary hname
  have hother := isName_temporaryName hname n
  by_cases hroom : HasRoom dir (temporaryName (name ++ ".") n)
  · refine .inr ⟨_, hother, temporaryName_ne name n, hroom, hunused hroom, ?_⟩
    have hresolve := (h.resolve_join hother).trans (if_pos hroom)
    simp only [Tree.writeTemporaryAt, hpath, editAt, hresolve, hunused hroom]
  · have hresolve := (h.resolve_join hother).trans (if_neg hroom)
    simp only [Tree.writeTemporaryAt, hpath, editAt, hresolve]
    exact .inl ⟨_, rfl⟩

/-- A file is put in the place of another one of its directory. -/
theorem Opens.renameAt (h : t.Opens dir place) {a b : Bytes} (ha : IsName a) (hb : IsName b)
    (hroomA : HasRoom dir a) (hroomB : HasRoom dir b) {idA idB : FileId} {dataA dataB : Bytes}
    {modeA modeB : Nat} (hfileA : t.find? (place ++ [a]) = some (.file idA dataA modeA))
    (hfileB : t.find? (place ++ [b]) = some (.file idB dataB modeB)) :
    t.renameAt (Path.join [dir, a]) (Path.join [dir, b]) =
      (.ok (), t.move (place ++ [a]) (place ++ [b])) := by
  rw [Tree.renameAt, h.lookup_join ha hroomA hfileA, (h.resolve_join hb).trans (if_pos hroomB)]
  simp only [hfileB, Folder.isPinned_join h.ne_nil ha, Node.isDirectory, Bool.false_and,
    Bool.false_eq_true, if_false]

end Tree

end ScanTriage
