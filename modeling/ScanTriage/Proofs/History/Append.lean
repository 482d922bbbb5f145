import ScanTriage.Proofs.History.Rotation

/-!
# Appending to a shelf

An append to a shelf adds the line of the record, which always succeeds, and may
then rotate (`Shelf.run_append`).
-/

namespace ScanTriage

namespace History

open ScanTriage.Tree (contentOf)

variable {t t' : Tree} {dir : Bytes} {place : NodePath} {c : Bytes → Option Node}
  {volumes : List Volume} {lines : List Bytes} {r : HistoryRecord}

theorem isWhole_append (s : Bytes) {l : Bytes} (hl : IsLine l) : IsWhole (s ++ l) := by
  obtain ⟨body, rfl, -⟩ := hl
  exact .inr (by simp)

theorem isWhole_flatten {ls : List Bytes} (h : ∀ l ∈ ls, IsLine l) : IsWhole ls.flatten := by
  rcases List.eq_nil_or_concat ls with rfl | ⟨front, last, rfl⟩
  · exact .inl rfl
  · rw [List.concat_eq_append, List.flatten_append, List.flatten_singleton]
    exact isWhole_append _ (h last (by simp))

theorem toNatClampNeg_pos {m : Int64} (h : 0 < m) : 0 < m.toNatClampNeg := by
  have hpos : (0 : Int) < m.toInt := Int64.lt_iff_toInt_lt.mp h
  rw [Int64.toNatClampNeg]
  omega

/-- An append to a directory that is there. -/
theorem run_append_eq {id : FileId} (hdir : t.isDirectory dir = true)
    (hadd : t.editAt (path dir) 0o644 (· ++ recordLine r) = (.ok id, t')) (m : Int64) :
    t.run (append dir r m) =
      t'.run (if 0 < m then rotateIfNeeded (path dir) m else pure () : FileTask Unit) := by
  have hmade := Tree.run_makeDirectories_of_isDirectory hdir
  refine (Tree.run_task_ok (Tree.run_orTell_ok hmade) _).trans ?_
  exact Tree.run_task_ok (Tree.run_orTell_ok (p := .perform (.append ..))
    (congrArg (fun x => (x.1.map fun _ => (), x.2)) hadd)) _

/-- It does not matter when the directory is made. -/
theorem run_append_of_made (hmade : t.run (.makeDirectories dir) = (.ok (), t'))
    (hdir : t'.isDirectory dir = true) (m : Int64) :
    t.run (append dir r m) = t'.run (append dir r m) := by
  have hagain := Tree.run_makeDirectories_of_isDirectory hdir
  have hfirst : t.run (append dir r m) = _ := Tree.run_task_ok (Tree.run_orTell_ok hmade) _
  have hsecond : t'.run (append dir r m) = _ := Tree.run_task_ok (Tree.run_orTell_ok hagain) _
  exact hfirst.trans hsecond.symm

theorem run_rotateIfNeeded {file text : Bytes} (hread : t.readAt file = .ok text)
    (hlines : lines? text = some lines) (m : Int64) :
    t.run (rotateIfNeeded file m) =
      if Int64.ofNat lines.length ≤ m then (.ok (), t)
      else t.run (rotate file lines m.toNatClampNeg) := by
  refine (Tree.run_task_ok (run_read hread) _).trans ?_
  rw [hlines]
  dsimp only
  split <;> rfl

namespace Shelf

theorem lines?_content (h : Shelf t dir place c volumes lines) :
    lines? (contentOf (c fileName)) = some lines := by
  rcases h.active with ⟨hnone, rfl⟩ | ⟨id, text, mode, hfile, hlines⟩
  · rw [hnone]
    rfl
  · rw [hfile]
    exact hlines

/-- What holds of the text of an active file, and of no text, holds of the content. -/
theorem content_of_readAt (h : Shelf t dir place c volumes lines) {P : Bytes → Prop} (hnone : P [])
    (hread : ∀ text, t.readAt (path dir) = .ok text → P text) : P (contentOf (c fileName)) := by
  rcases h.active with ⟨hmissing, -⟩ | ⟨id, text, mode, hfile, -⟩
  · rw [hmissing]
    exact hnone
  · rw [hfile]
    refine hread text ?_
    rw [path, h.folder.readAt isName_fileName h.room, hfile]

theorem update_active (h : Shelf t dir place c volumes lines) {id : FileId} {text : Bytes}
    {mode : Nat} {lines' : List Bytes}
    (h' : t'.Folder dir place (Function.update c fileName (some (.file id text mode))))
    (hlines : lines? text = some lines') :
    Shelf t' dir place (Function.update c fileName (some (.file id text mode))) volumes lines' := by
  refine h.change_foreign h' ?_ (.inr ⟨id, text, mode, Function.update_self .., hlines⟩)
  intro name hname
  have hne : name ≠ fileName := fun h => hname (h ▸ isForeign_fileName)
  exact Function.update_of_ne hne ..

theorem addLine (h : Shelf t dir place c volumes lines) (hwhole : IsWhole (contentOf (c fileName)))
    (hr : r.IsStorable) :
    ∃ t' id mode, t.editAt (path dir) 0o644 (· ++ recordLine r) = (.ok id, t') ∧
      Shelf t' dir place
        (Function.update c fileName
          (some (.file id (contentOf (c fileName) ++ recordLine r) mode)))
        volumes (lines ++ [recordLine r]) := by
  obtain ⟨id, mode, t', hedit, h'⟩ := h.folder.editAt isName_fileName ⟨h.room, h.not_isDirectoryIn⟩
    0o644 (· ++ recordLine r)
  refine ⟨t', id, mode, hedit, h.update_active h' ?_⟩
  rw [lines?_append hwhole, h.lines?_content, lines?_line (isLine_recordLine hr),
    reread_recordLine]
  rfl

/-- An append adds the line of the record and rotates if there are too many
lines then. -/
theorem run_append (h : Shelf t dir place c volumes lines)
    (hwhole : IsWhole (contentOf (c fileName))) (horder : Orderly (volumes.map Prod.fst))
    (hnumbers : ∀ v ∈ volumes, v.1.number < Int64.maxValue) (hr : r.IsStorable) (m : Int64) :
    ∃ t₁ c₁, Shelf t₁ dir place c₁ volumes (lines ++ [recordLine r]) ∧
      IsWhole (contentOf (c₁ fileName)) ∧ Grows c c₁ ∧
      ((t.run (append dir r m) = (.ok (), t₁) ∧ (0 < m → Int64.ofNat (lines.length + 1) ≤ m)) ∨
        0 < m ∧ ¬ Int64.ofNat (lines.length + 1) ≤ m ∧
          ∀ moved, parsed? (lines.take (lines.length + 1 - m.toNatClampNeg)) = some moved →
            Rotation t₁ dir place c₁ volumes (lines ++ [recordLine r]) m.toNatClampNeg moved
              (t.run (append dir r m))) := by
  have hdir : t.isDirectory dir = true :=
    Tree.isDirectory_iff.mpr ⟨place, h.folder.opens.leads, h.folder.opens.isDirectoryAt⟩
  obtain ⟨t₁, id, mode, hadd, h₁⟩ := h.addLine hwhole hr
  have hlength : (lines ++ [recordLine r]).length = lines.length + 1 := by simp
  have hfile := Function.update_self fileName
    (some (Node.file id (contentOf (c fileName) ++ recordLine r) mode)) c
  refine ⟨t₁, _, h₁, ?_, Grows.update fun n => (temporaryName_ne n).symm, ?_⟩
  · rw [hfile]
    exact isWhole_append _ (isLine_recordLine hr)
  rw [run_append_eq hdir hadd]
  by_cases hm : 0 < m
  · have hread : t₁.readAt (path dir) = .ok (contentOf (c fileName) ++ recordLine r) := by
      rw [path, h₁.folder.readAt isName_fileName h₁.room, hfile]
    have hlines := h₁.lines?_content
    rw [hfile] at hlines
    rw [if_pos hm, run_rotateIfNeeded hread hlines, hlength]
    by_cases hfew : Int64.ofNat (lines.length + 1) ≤ m
    · exact .inl ⟨if_pos hfew, fun _ => hfew⟩
    · refine .inr ⟨hm, hfew, fun moved hmoved => ?_⟩
      rw [if_neg hfew]
      refine h₁.run_rotate horder hnumbers m.toNatClampNeg ?_
      have hkeep := toNatClampNeg_pos hm
      rwa [hlength, List.take_append_of_le_length (by omega)]
  · rw [if_neg hm]
    exact .inl ⟨rfl, fun hm' => absurd hm' hm⟩

end Shelf

end History

end ScanTriage
