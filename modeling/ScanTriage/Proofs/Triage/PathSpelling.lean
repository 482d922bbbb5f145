import ScanTriage.Proofs.Text.Case
import ScanTriage.Proofs.Triage.Location

/-!
# The spelling of paths

A path may be written with either separator. Paths that differ in their
separators only lie in the same place (`sameOwner_of_reseparated`,
`samePath_of_respelled`): they are normalized to the same path, and the endings
of bundled files have no separator. For the path by which findings about
metadata in loops are judged, the case of ASCII letters does not matter either.
-/

namespace ScanTriage

namespace SourcePath

def IsSeparator (b : UInt8) : Prop := b = Bytes.slash ∨ b = Bytes.backslash

instance : DecidablePred IsSeparator := fun b =>
  inferInstanceAs (Decidable (b = Bytes.slash ∨ b = Bytes.backslash))

theorem IsSeparator.isAscii {b : UInt8} (h : IsSeparator b) : b.toNat < 0x80 := by
  rcases h with rfl | rfl <;> decide

theorem IsSeparator.lowerByte {b : UInt8} (h : IsSeparator b) :
    IsSeparator (Text.lowerByte b) := by
  rcases h with rfl | rfl <;> decide

/-- Equal, or both separators. -/
def SameButSeparator (a b : UInt8) : Prop := a = b ∨ IsSeparator a ∧ IsSeparator b

/-- Equal up to the case of an ASCII letter, or both separators. -/
def SameButSpelling (a b : UInt8) : Prop :=
  Text.lowerByte a = Text.lowerByte b ∨ IsSeparator a ∧ IsSeparator b

/-- Some separators are exchanged for the other one. -/
def Reseparated : Bytes → Bytes → Prop := List.Forall₂ SameButSeparator

/-- Some separators are exchanged, and some ASCII letters are in the other
case. -/
def Respelled : Bytes → Bytes → Prop := List.Forall₂ SameButSpelling

instance : DecidableRel SameButSeparator := fun a b =>
  inferInstanceAs (Decidable (a = b ∨ IsSeparator a ∧ IsSeparator b))

instance : DecidableRel SameButSpelling := fun a b =>
  inferInstanceAs (Decidable (Text.lowerByte a = Text.lowerByte b ∨ IsSeparator a ∧ IsSeparator b))

instance : DecidableRel Reseparated :=
  inferInstanceAs (DecidableRel (List.Forall₂ SameButSeparator))

instance : DecidableRel Respelled :=
  inferInstanceAs (DecidableRel (List.Forall₂ SameButSpelling))

variable {p q : Bytes}

theorem Reseparated.respelled (h : Reseparated p q) : Respelled p q :=
  List.Forall₂.imp (fun _ _ hab => hab.imp_left (congrArg _)) h

/-! ## The normalized path -/

def normalizeByte (b : UInt8) : UInt8 := if b == Bytes.backslash then Bytes.slash else b

theorem normalize_eq_map (p : Bytes) : normalize p = p.map normalizeByte := rfl

theorem normalizeByte_separator {b : UInt8} (h : IsSeparator b) :
    normalizeByte b = Bytes.slash := by
  rcases h with rfl | rfl <;> rfl

theorem normalizeByte_eq {a b : UInt8} (h : SameButSeparator a b) :
    normalizeByte a = normalizeByte b := by
  rcases h with rfl | ⟨ha, hb⟩
  · rfl
  · rw [normalizeByte_separator ha, normalizeByte_separator hb]

theorem normalize_eq_of_reseparated (h : Reseparated p q) : normalize p = normalize q := by
  have hbytes : List.Forall₂ Eq (normalize p) (normalize q) := by
    rw [normalize_eq_map, normalize_eq_map, List.forall₂_map_left_iff, List.forall₂_map_right_iff]
    exact List.Forall₂.imp (fun _ _ => normalizeByte_eq) h
  exact List.forall₂_eq_eq_eq ▸ hbytes

/-- No letter is a backslash in lower case. -/
theorem eq_backslash_of_lowerByte {b : UInt8} (h : Text.lowerByte b = Bytes.backslash) :
    b = Bytes.backslash := by
  have hbyte := Text.toNat_lowerByte b
  have hslash : Bytes.backslash.toNat = 0x5C := rfl
  rw [h] at hbyte
  rw [← UInt8.toNat_inj]
  split at hbyte <;> omega

theorem lowerByte_normalizeByte_eq {a b : UInt8} (h : SameButSpelling a b) :
    Text.lowerByte (normalizeByte a) = Text.lowerByte (normalizeByte b) := by
  rcases h with h | ⟨ha, hb⟩
  -- Letters stay what they are; only a backslash is replaced, and it has no case.
  · by_cases ha : a = Bytes.backslash
    · subst ha
      rw [eq_backslash_of_lowerByte h.symm]
    · have hb : b ≠ Bytes.backslash := by
        rintro rfl
        exact ha (eq_backslash_of_lowerByte h)
      simpa [normalizeByte, ha, hb] using h
  · rw [normalizeByte_separator ha, normalizeByte_separator hb]

theorem lower_normalize_eq_of_respelled (h : Respelled p q) :
    Text.lower (normalize p) = Text.lower (normalize q) := by
  refine Text.lower_eq_of_lowerByte_eq ?_
  rw [normalize_eq_map, normalize_eq_map, List.forall₂_map_left_iff, List.forall₂_map_right_iff]
  exact List.Forall₂.imp (fun _ _ => lowerByte_normalizeByte_eq) h

/-! ## The ending of a path -/

theorem Reseparated.symm (h : Reseparated p q) : Reseparated q p :=
  List.Forall₂.flip (List.Forall₂.imp (fun _ _ hab => hab.imp Eq.symm And.symm) h)

/-- A text without separators is spelled in one way. -/
theorem Reseparated.eq (h : Reseparated p q) (hp : ∀ b ∈ p, ¬ IsSeparator b) : p = q := by
  induction h with
  | nil => rfl
  | cons hab _ ih =>
    obtain ⟨ha, hp⟩ := List.forall_mem_cons.mp hp
    rcases hab with rfl | ⟨hseparator, -⟩
    · rw [ih hp]
    · exact absurd hseparator ha

theorem suffix_of_reseparated {ending : Bytes} (hending : ∀ b ∈ ending, ¬ IsSeparator b)
    (h : Reseparated p q) (hp : ending <:+ p) : ending <:+ q := by
  obtain ⟨front, rfl⟩ := hp
  have hback : Reseparated ending (q.drop front.length) := by
    have hdrop := List.forall₂_drop front.length h
    rwa [List.drop_left] at hdrop
  rw [hback.eq hending]
  exact List.drop_suffix _ _

theorem reseparated_lower (h : Reseparated p q) : Reseparated (Text.lower p) (Text.lower q) := by
  refine Text.lower_forall₂ ?_ (fun _ => .inl rfl) ?_ h
  · rintro a b (rfl | ⟨ha, hb⟩)
    · exact .inl rfl
    · exact .inr ⟨ha.isAscii, hb.isAscii⟩
  · rintro a b (rfl | ⟨ha, hb⟩)
    · exact .inl rfl
    · exact .inr ⟨ha.lowerByte, hb.lowerByte⟩

theorem separator_notMem_minifiedSuffixes :
    ∀ ending ∈ minifiedSuffixes, ∀ b ∈ ending, ¬ IsSeparator b := by
  have hall : (minifiedSuffixes.all fun ending => ending.all fun b => !decide (IsSeparator b)) =
      true := by decide
  intro ending hmem b hb
  simpa using List.all_eq_true.mp (List.all_eq_true.mp hall ending hmem) b hb

theorem isMinified_of_reseparated (h : Reseparated p q) (hp : isMinified p = true) :
    isMinified q = true := by
  simp only [isMinified, List.any_eq_true, List.isSuffixOf_iff_suffix] at hp ⊢
  obtain ⟨ending, hmem, hending⟩ := hp
  have hplain := separator_notMem_minifiedSuffixes ending hmem
  exact ⟨ending, hmem, suffix_of_reseparated hplain (reseparated_lower h) hending⟩

end SourcePath

/-! ## Verdicts -/

section Verdicts

open SourcePath (Reseparated Respelled)

variable {p q : Bytes}

theorem sameOwner_of_reseparated (h : Reseparated p q) :
    (Location.of p).SameOwner (Location.of q) := by
  refine ⟨?_, Bool.eq_iff_iff.mpr ⟨?_, ?_⟩⟩
  · simp only [Location.of, SourcePath.isVendor, SourcePath.normalize_eq_of_reseparated h]
  · exact SourcePath.isMinified_of_reseparated h
  · exact SourcePath.isMinified_of_reseparated h.symm

theorem samePath_of_respelled (h : Respelled p q) : (Location.of p).SamePath (Location.of q) := by
  simp only [Location.SamePath, Location.of, SourcePath.lower_normalize_eq_of_respelled h]

/-- However the separators of its path are written, a finding is decided alike
and belongs to the same people. On metadata in a loop the decision does not
depend on the case of ASCII letters in the path either. -/
theorem classify?_respelled (f : Finding) (file : Bytes) :
    (Reseparated f.file file →
      Finding.classify? { f with file := file } = f.classify? ∧
        (Evidence.of { f with file := file }).thirdParty = (Evidence.of f).thirdParty) ∧
      (f.id = ("n-plus-one-pattern" : Bytes) → Respelled f.file file →
        Finding.classify? { f with file := file } = f.classify?) := by
  have hloop : f.id = ("n-plus-one-pattern" : Bytes) → Respelled f.file file →
      Finding.classify? { f with file := file } = f.classify? := by
    intro hid h
    have hchain : Chain.ofId? f.id = some Rules.metadataInLoop := Chain.ofId?_eq hid rfl
    exact (Finding.classify?_eq_of_respects hchain Rules.metadataInLoop_respects
      (samePath_of_respelled h)).symm
  refine ⟨fun h => ⟨?_, ?_⟩, hloop⟩
  · by_cases hid : f.id = ("n-plus-one-pattern" : Bytes)
    · exact hloop hid h.respelled
    cases hc : Chain.ofId? f.id with
    | none => rw [Finding.classify?, Finding.classify?, hc, Option.map_none, Option.map_none]
    | some c =>
      obtain ⟨hmem, hcid⟩ := Chain.mem_of_ofId?_eq_some hc
      have hdemoting : Demoting c.fallback c.rules := demoting_of_mem c hmem (hcid ▸ hid)
      exact (Finding.classify?_eq_of_respects hc hdemoting.respects
        (sameOwner_of_reseparated h)).symm
  · obtain ⟨hvendor, hminified⟩ := sameOwner_of_reseparated h
    exact congrArg₂ or hvendor.symm hminified.symm

/-- A path with a byte between two parts that is no character. -/
def strayPath (front back : Bytes) : Bytes := front ++ 0xFF :: back

def profileView : Finding where
  id := "n-plus-one-pattern"
  file := strayPath "Theme\\Views/" "\\Profile.php"
  code := "foreach ( $fields as $key )"
  context := [⟨0, "get_user_meta( $user->ID, $key )"⟩]

theorem classify?_respelled_profileView :
    Reseparated profileView.file (strayPath "Theme/Views\\" "/Profile.php") ∧
      Respelled profileView.file (strayPath "THEME/views/" "/profile.PHP") ∧
      profileView.classify?.isSome = true ∧
      Finding.classify? { profileView with file := strayPath "Theme/Views\\" "/Profile.php" } =
        profileView.classify? ∧
      Finding.classify? { profileView with file := strayPath "THEME/views/" "/profile.PHP" } =
        profileView.classify? := by
  have hseparators : Reseparated profileView.file (strayPath "Theme/Views\\" "/Profile.php") := by
    decide
  have hspelling : Respelled profileView.file (strayPath "THEME/views/" "/profile.PHP") := by
    decide
  exact ⟨hseparators, hspelling, rfl, ((classify?_respelled profileView _).1 hseparators).1,
    (classify?_respelled profileView _).2 rfl hspelling⟩

end Verdicts

end ScanTriage
