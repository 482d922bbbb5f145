import ScanTriage.Proofs.History.Computed
import ScanTriage.Proofs.History.Interrupted

/-!
# Appending to a history that can be read

What can be read after an append, whatever else is in the state directory and
whichever commands fail. If the append succeeds, the last of the old records are
there and then the new one. If it fails, its message tells what is left.
-/

namespace ScanTriage

namespace History

variable {t t' : Tree} {dir : Bytes} {r : HistoryRecord} {rs : List HistoryRecord}
  {before : List HistoryRecord} {answer : Except Fault Unit}

/-- What is left by an append to a history that can be read, before its directory is
there and once it is. -/
theorem records_append (hsound : t.IsSound)
    (hbefore : ∀ t₁, t.IsPaved dir t₁ → t₁.isDirectory dir = false → Reads t₁ dir before)
    (hread : Reads (t.run (.makeDirectories dir)).2 dir rs)
    (hends : ∀ text, (t.run (.makeDirectories dir)).2.readAt (path dir) = .ok text →
      TakesLine text r.toLine)
    (harchives : ∀ found, ((t.run (.makeDirectories dir)).2.run (archives dir)).1 = .ok found →
      Roomy found ∧ ∀ a ∈ found, a.number < Int64.maxValue)
    (hr : r.IsStorable) {m : Int64} (hrun : t.Yields (append dir r m) answer t') :
    Leaves t' dir before rs r answer := by
  rcases Tree.yields_orTell_bind.mp hrun with ⟨_, t₁, hmaking, hrest⟩ | ⟨fault, hmaking, rfl⟩ <;>
    obtain ⟨hsound₁, hpaved, hdone, hmade⟩ := hsound.yields_makeDirectories hmaking
  · have hdir := hdone rfl
    rw [hmade hdir] at hread hends harchives
    obtain ⟨place, c, hfolder⟩ := hsound₁.toIsProper.folder hdir
    obtain ⟨volumes, lines, recent, h, horder, hparsed, rfl⟩ :=
      exists_shelf hfolder hread fun found hfound => (harchives found hfound).1.orderly
    obtain ⟨hroomy, hnumbers⟩ := harchives _ (congrArg Prod.fst (h.run_archives horder))
    refine h.leaves (h.content_of_readAt (takesLine_of_isWhole (.inl rfl) hr) hends) hroomy ?_
      hparsed hr hrest
    exact fun v hv => hnumbers v.1 (List.mem_map_of_mem hv)
  · refine .unmade _ ?_
    split
    · next hdir => rwa [hmade hdir] at hread
    · next hdir => exact hbefore t' hpaved (by simpa using hdir)

def shortLine (id : Bytes) : Bytes := "\x7b\"run_id\":\"" ++ id ++ "\"\x7d"

def stateWith (text : Bytes) (others : List (Bytes × Node)) : Tree where
  nodes := ([("s" : Bytes)], .directory 0o755) :: ([("s" : Bytes), fileName], .file 0 text 0o644) ::
    others.map fun (name, node) => ([("s" : Bytes), name], node)
  serial := 1

/-- An archive of one line, compressed with codes for the bytes. -/
def compressed : Bytes :=
  [0x1f, 0x8b, 0x08, 0x00, 0x00, 0x00, 0x00, 0x00, 0x00, 0xff, 0xab, 0x56, 0x2a, 0x2a, 0xcd, 0x8b,
    0xcf, 0x4c, 0x51, 0xb2, 0x52, 0x4a, 0x54, 0xaa, 0xe5, 0x02, 0x00, 0xf9, 0x99, 0x39, 0x2f, 0x0f,
    0x00, 0x00, 0x00]

/-- Blank lines, the last of them without its newline, an archive after a gap and a
foreign directory. -/
def gapped : Tree :=
  stateWith (shortLine "b" ++ "\r\n\n ")
    [(archiveName 7, .file 0 compressed 0o644), ("notes", .directory 0o755)]

/-- An append that rotates, and one that stops when a part of its line is written. -/
theorem records_append_gapped :
    let part : Bytes := "\x7b\"run_id"
    let cut : Tree := (gapped.perform (.append (path "s") 0o644 part)).2
    let full : FileFault := ⟨"write", path "s", .other "no space left on device"⟩
    Reads gapped "s" [{ runId := "a" }, { runId := "b" }] ∧
      Leaves (gapped.run (append "s" { runId := "c" } 1)).2 "s" []
        [{ runId := "a" }, { runId := "b" }] { runId := "c" }
        (gapped.run (append "s" { runId := "c" } 1)).1 ∧
      Leaves cut "s" [] [{ runId := "a" }, { runId := "b" }] { runId := "c" }
        (.error (.user "Could not record triage history." full.toFault)) := by
  intro part cut full
  have hsound : gapped.IsSound := Tree.isSound_of_root (by decide +kernel) rfl
    (by decide +kernel) (by decide +kernel) (by decide +kernel)
  have hdir : gapped.isDirectory "s" = true := by decide +kernel
  have hmade : gapped.run (.makeDirectories "s") = (.ok (), gapped) :=
    Tree.run_makeDirectories_of_isDirectory hdir
  have hbefore : ∀ t₁, gapped.IsPaved "s" t₁ → t₁.isDirectory "s" = false → Reads t₁ "s" [] := by
    intro t₁ hpaved hnot
    rw [hpaved.eq_self hdir, hdir] at hnot
    cases hnot
  have hread : Reads gapped "s" [{ runId := "a" }, { runId := "b" }] := by
    rw [Reads, run_records_eq]
    decide +kernel
  have hends : ∀ text, gapped.readAt (path "s") = .ok text →
      TakesLine text ({ runId := "c" } : HistoryRecord).toLine := by
    have htext : gapped.readAt (path "s") = .ok (shortLine "b" ++ "\r\n\n" ++ " ") := by
      decide +kernel
    intro text h
    rw [htext] at h
    cases h
    exact ⟨shortLine "b" ++ "\r\n\n", " ", rfl, .inr (by decide), by decide, by decide +kernel,
      by decide +kernel⟩
  have harchives : ∀ found, (gapped.run (archives "s")).1 = .ok found →
      Roomy found ∧ ∀ a ∈ found, a.number < Int64.maxValue := by
    have hfound : (archivesAt gapped "s").toOption =
        some [⟨7, Path.join ["s", archiveName 7]⟩] := by decide +kernel
    intro found h
    rw [run_archives_eq] at h
    have h := congrArg Except.toOption h
    rw [hfound] at h
    cases h
    exact ⟨.inl (by decide), by decide⟩
  have hr : ({ runId := "c" } : HistoryRecord).IsStorable := by decide +kernel
  have hcut : gapped.Yields (append "s" { runId := "c" } 1)
      (.error (.user "Could not record triage history." full.toFault)) cut := by
    refine Tree.yields_orTell_bind.mpr (.inl ⟨(), gapped, ?_, ?_⟩)
    · simpa [hmade] using Tree.yields_run (.makeDirectories "s") gapped
    · refine Tree.yields_orTell_bind.mpr (.inr ⟨full, Tree.yields_perform.mpr ?_, rfl⟩)
      exact .inr ⟨trivial, .inr ⟨_, .append _ _ (by decide +kernel), rfl⟩⟩
  have hleaves : ∀ {answer t'}, gapped.Yields (append "s" { runId := "c" } 1) answer t' →
      Leaves t' "s" [] [{ runId := "a" }, { runId := "b" }] { runId := "c" } answer :=
    records_append hsound hbefore (by rwa [hmade]) (by rwa [hmade]) (by rwa [hmade]) hr
  exact ⟨hread, hleaves (Tree.yields_run _ _), hleaves hcut⟩

/-! ## Neither all nor nothing -/

/-- Whether a successful append leaves the last of the records with the new one,
and any other all records as they were. -/
def isAllOrNothing (t : Tree) (dir : Bytes) (r : HistoryRecord) (m : Int64) : Bool :=
  match (t.run (records dir)).1, t.run (append dir r m) with
  | .error _, _ => true
  | .ok rs, (answer, t') =>
    match answer, (t'.run (records dir)).1 with
    | .ok _, .ok now => now.isSuffixOf (rs ++ [r]) && now.getLast? == some r
    | .error _, .ok now => now == rs
    | _, .error _ => false

def unfinished : Tree := stateWith (shortLine "a") []

/-- A directory in the place of the first archive. -/
def blocked : Tree := stateWith (shortLine "a" ++ "\n") [(archiveName 1, .directory 0o755)]

def crowded : Tree :=
  stateWith "\n" <|
    [ ("000000002", shortLine "a" ++ "\n"), ("00000002", ""), ("0000001", ""), ("0000002", ""),
      ("000001", ""), ("000002", ""), ("00001", ""), ("00002", ""),
      ("0002", shortLine "b" ++ "\n"), ("001", ""), ("02", ""), ("1", ""), ("2", "") ].map
      fun (digits, text) => (archiveFront ++ digits ++ archiveBack, .file 0 (Gzip.pack text) 0o644)

/-- An append goes wrong behind a line without its newline, where it fails halfway,
where its path leads through a directory that it makes, and where archives of one
number change their order. -/
theorem append_not_allOrNothing :
    isAllOrNothing unfinished "s" { runId := "b" } 0 = false ∧
      isAllOrNothing blocked "s" { runId := "b" } 1 = false ∧
      isAllOrNothing blocked "a/../s" { runId := "b" } 0 = false ∧
      isAllOrNothing crowded "s" { runId := "c" } 1 = false := by
  simp only [isAllOrNothing, run_records_eq, run_append_eq_at]
  decide +kernel

end History

end ScanTriage
