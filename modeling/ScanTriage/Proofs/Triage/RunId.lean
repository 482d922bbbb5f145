import ScanTriage.Proofs.Finding.RoundTrip
import ScanTriage.Proofs.History.Record
import ScanTriage.Proofs.Triage.Windows

/-!
# Run identifiers

A run that is not given an identifier hashes its name: its findings, its cap and
its timestamp, each on a line. Written findings and caps hold no line end, so the
name can be taken apart in one way only, and two runs have the same name if and
only if they have the same task (`Engine.name_eq_iff`). What a run does with its
findings is no part of its name. The identifier is two hashes away from the name:
runs of different tasks that share one are a collision of a hash function
(`Engine.runId_unambiguous`).
-/

namespace ScanTriage

/-- Two inputs that a hash function does not tell apart. -/
structure Collision (hash : Bytes → Bytes) (a b : Bytes) : Prop where
  ne : a ≠ b
  hash_eq : hash a = hash b

theorem Collision.eq_or {hash : Bytes → Bytes} {a b : Bytes} (h : hash a = hash b) :
    a = b ∨ Collision hash a b :=
  (eq_or_ne a b).imp_right fun hne => ⟨hne, h⟩

/-! ## Written identifiers -/

namespace Uuid

def digits (uuid : Bytes) : Bytes := uuid.flatMap fun b => Bytes.hex 2 b.toNat

theorem hex_two (b : UInt8) :
    Bytes.hex 2 b.toNat = [Bytes.hexDigit (b.toNat / 16 % 16), Bytes.hexDigit (b.toNat % 16)] := rfl

theorem hexDigit_inj {m n : Nat} (hm : m < 16) (hn : n < 16)
    (h : Bytes.hexDigit m = Bytes.hexDigit n) : m = n := by
  have hvalue := Json.hexValue?_hexDigit m hm
  rw [h, Json.hexValue?_hexDigit n hn] at hvalue
  exact (Option.some.inj hvalue).symm

theorem digits_injective : Function.Injective digits := by
  intro a
  induction a with
  | nil =>
    intro b h
    cases b with
    | nil => rfl
    | cons y b => simp [digits, hex_two] at h
  | cons x a ih =>
    intro b h
    cases b with
    | nil => simp [digits, hex_two] at h
    | cons y b =>
      simp only [digits, List.flatMap_cons, hex_two, List.cons_append, List.nil_append,
        List.cons.injEq] at h
      obtain ⟨hhigh, hlow, hrest⟩ := h
      have hx := x.toNat_lt
      have hy := y.toNat_lt
      have hhigh := hexDigit_inj (Nat.mod_lt _ (by decide)) (Nat.mod_lt _ (by decide)) hhigh
      have hlow := hexDigit_inj (Nat.mod_lt _ (by decide)) (Nat.mod_lt _ (by decide)) hlow
      rw [UInt8.toNat_inj.mp (by omega : x.toNat = y.toNat), ih hrest]

theorem minus_notMem_digits (uuid : Bytes) : Bytes.minus ∉ digits uuid := by
  have hdigit : ∀ n, Bytes.hexDigit (n % 16) ≠ Bytes.minus := by
    intro n h
    have hvalue := Json.hexValue?_hexDigit (n % 16) (Nat.mod_lt _ (by decide))
    rw [h] at hvalue
    cases hvalue
  intro hmem
  obtain ⟨b, -, hb⟩ := List.mem_flatMap.mp hmem
  rw [hex_two, List.mem_pair] at hb
  exact hb.elim (hdigit _ ·.symm) (hdigit _ ·.symm)

/-- Without the hyphens, the written form is the digits. -/
theorem filter_render (uuid : Bytes) :
    (render uuid).filter (· != Bytes.minus) = digits uuid := by
  have hself : ∀ s : Bytes, s ⊆ digits uuid → s.filter (· != Bytes.minus) = s := by
    intro s hs
    refine List.filter_eq_self.mpr fun b hb => bne_iff_ne.mpr ?_
    rintro rfl
    exact minus_notMem_digits uuid (hs hb)
  have hhyphen : ("-" : Bytes) = [Bytes.minus] := by decide
  have hgroup : ∀ i n, ((digits uuid).drop i).take n ⊆ digits uuid := fun i n =>
    List.Subset.trans (List.take_subset _ _) (List.drop_subset _ _)
  have hwritten : render uuid = (digits uuid).take 8 ++ Bytes.minus ::
      (((digits uuid).drop 8).take 4 ++ Bytes.minus :: (((digits uuid).drop 12).take 4 ++
        Bytes.minus :: (((digits uuid).drop 16).take 4 ++ Bytes.minus :: (digits uuid).drop 20))) := by
    simp [render, Bytes.join, hhyphen, digits, List.intercalate]
  rw [hwritten]
  simp only [List.filter_append, List.filter_cons, bne_self_eq_false, Bool.false_eq_true, if_false,
    hself _ (List.take_subset _ _), hself _ (hgroup _ _), hself _ (List.drop_subset _ _)]
  have hjoin : ∀ i n, ((digits uuid).drop i).take n ++ (digits uuid).drop (i + n) =
      (digits uuid).drop i := by
    intro i n
    rw [← List.drop_drop, List.take_append_drop]
  rw [hjoin 16 4, hjoin 12 4, hjoin 8 4, List.take_append_drop]

theorem render_injective : Function.Injective render := by
  intro a b h
  apply digits_injective
  rw [← filter_render a, ← filter_render b, h]

end Uuid

/-! ## Names -/

namespace Finding

def AllValid (findings? : Option (List Finding)) : Prop :=
  ∀ f ∈ findings?.getD [], ∀ s ∈ f.texts, Utf8.isValid s = true

theorem AllValid.map_scrubbed {findings? : Option (List Finding)} (h : AllValid findings?) :
    findings?.map (·.map scrubbed) = findings? := by
  cases findings? with
  | none => rfl
  | some findings =>
    refine congrArg some ?_
    exact (List.map_congr_left fun f hf => scrubbed_of_isValid (h f hf)).trans (List.map_id' findings)

/-- Lists of findings that are written alike are read back alike. -/
theorem AllValid.eq_of_write {html : Bool} {a? b? : Option (List Finding)} (ha : AllValid a?)
    (hb : AllValid b?) (h : (listToJson a?).write html = (listToJson b?).write html) : a? = b? := by
  have hread := listOfReport?_bareReport html a? Json.Blank.nil Json.Blank.nil
  rw [h, listOfReport?_bareReport html b? Json.Blank.nil Json.Blank.nil, ha.map_scrubbed,
    hb.map_scrubbed] at hread
  exact hread.symm

end Finding

namespace Bytes

theorem decimalInt64_injective : Function.Injective decimalInt64 := by
  intro m n h
  have hread := Integer.readDecimal_decimalInt64 m
  rw [h, Integer.readDecimal_decimalInt64 n] at hread
  exact (Except.ok.inj hread).symm

/-- A text is cut at its first line end in one way only. -/
theorem line_append_inj {a b s t : Bytes} (ha : Json.IsPrintable a) (hb : Json.IsPrintable b)
    (h : a ++ newline :: s = b ++ newline :: t) : a = b ∧ s = t := by
  have hend : ¬ ¬ newline < 0x20 := by decide
  induction a generalizing b with
  | nil =>
    cases b with
    | nil => exact ⟨rfl, (List.cons.inj h).2⟩
    | cons y b =>
      obtain ⟨rfl, -⟩ := List.cons.inj h
      exact absurd (hb newline List.mem_cons_self) hend
  | cons x a ih =>
    cases b with
    | nil =>
      obtain ⟨rfl, -⟩ := List.cons.inj h
      exact absurd (ha newline List.mem_cons_self) hend
    | cons y b =>
      obtain ⟨rfl, htail⟩ := List.cons.inj h
      obtain ⟨rfl, hrest⟩ := ih (List.forall_mem_cons.mp ha).2 (List.forall_mem_cons.mp hb).2 htail
      exact ⟨rfl, hrest⟩

end Bytes

namespace Engine

theorem runName_inj {a? b? : Option (List Finding)} {m n : Int64} {s t : Bytes}
    (ha : Finding.AllValid a?) (hb : Finding.AllValid b?) :
    runName a? m s = runName b? n t ↔ a? = b? ∧ m = n ∧ s = t := by
  refine ⟨fun h => ?_, fun ⟨hfindings, hcap, htime⟩ => by rw [hfindings, hcap, htime]⟩
  have hnewline : ("\n" : Bytes) = [Bytes.newline] := by decide
  simp only [runName, hnewline, List.append_assoc, List.singleton_append] at h
  have hcap : ∀ n, Json.IsPrintable (Bytes.decimalInt64 n) := fun n =>
    (Json.Fits.int n : Json.Fits 0 (.int n)).isPrintable_write true
  obtain ⟨hfindings, h⟩ := Bytes.line_append_inj ((Finding.fits_listToJson a?).isPrintable_write true)
    ((Finding.fits_listToJson b?).isPrintable_write true) h
  obtain ⟨hcaps, htime⟩ := Bytes.line_append_inj (hcap m) (hcap n) h
  exact ⟨ha.eq_of_write hb hfindings, Bytes.decimalInt64_injective hcaps, htime⟩

def name (engine : Engine) (findings? : Option (List Finding)) : Bytes :=
  runName findings? engine.limit (Timestamp.render engine.now)

/-- Two runs have the same task: the same findings, where no list is not an empty
list, the same cap and the same timestamp. The number of workers, what was
reviewed and the given identifier are no part of it. -/
structure SameTask (e₁ e₂ : Engine) (findings₁? findings₂? : Option (List Finding)) : Prop where
  findings : findings₁? = findings₂?
  cap : e₁.cap = e₂.cap
  timestamp : Timestamp.render e₁.now = Timestamp.render e₂.now

variable {e₁ e₂ : Engine} {findings₁? findings₂? : Option (List Finding)}

theorem limit_eq_limit_iff : e₁.limit = e₂.limit ↔ e₁.cap = e₂.cap := by
  refine ⟨fun h => ?_, fun h => by rw [limit_eq, limit_eq, h]⟩
  rw [limit_eq, limit_eq] at h
  have h := congrArg Int64.toInt h
  rw [Int64.toInt_ofNat_of_lt e₁.cap_lt, Int64.toInt_ofNat_of_lt e₂.cap_lt] at h
  exact Int.ofNat_inj.mp h

theorem name_eq_iff (h₁ : Finding.AllValid findings₁?) (h₂ : Finding.AllValid findings₂?) :
    e₁.name findings₁? = e₂.name findings₂? ↔ SameTask e₁ e₂ findings₁? findings₂? := by
  rw [name, name, runName_inj h₁ h₂, limit_eq_limit_iff]
  exact ⟨fun ⟨hfindings, hcap, htime⟩ => ⟨hfindings, hcap, htime⟩,
    fun h => ⟨h.findings, h.cap, h.timestamp⟩⟩

/-! ## Identifiers -/

/-- A run that is given no identifier hashes its name twice, whatever it reviews. -/
theorem runId_of_runWith {schedule : Schedule} {engine : Engine}
    {findings? : Option (List Finding)} {report : Report} {events : List Event}
    (hnone : engine.runId? = none) (h : engine.runWith schedule findings? = .ok (report, events)) :
    report.runId =
      Uuid.render (Uuid.ofName runNamespace (Sha256.hash (engine.name findings?))) := by
  obtain ⟨s, rfl⟩ := exists_report_of_runWith h
  simp only [Engine.report, hnone, Option.getD_none, derivedRunId, name]

/-- Identifiers that are equal come from equal names, or from a collision of one
of the two hashes between name and identifier. -/
theorem name_eq_or_collision {m n : Bytes}
    (h : Uuid.render (Uuid.ofName runNamespace (Sha256.hash m)) =
      Uuid.render (Uuid.ofName runNamespace (Sha256.hash n))) :
    m = n ∨ Collision Sha256.hash m n ∨
      Collision (Uuid.ofName runNamespace) (Sha256.hash m) (Sha256.hash n) := by
  rcases Collision.eq_or (Uuid.render_injective h) with hhash | hcollision
  · exact (Collision.eq_or hhash).imp_right .inl
  · exact .inr (.inr hcollision)

/-- The identifier of a run stands for its task. The name that two runs hash is
the same if and only if they have the same task; so the identifier depends
neither on the number of workers and their order of work nor on what was
reviewed, and runs of different tasks share one only through a collision. -/
theorem runId_unambiguous (e₁ e₂ : Engine) (findings₁? findings₂? : Option (List Finding))
    (h₁ : Finding.AllValid findings₁?) (h₂ : Finding.AllValid findings₂?) :
    (e₁.name findings₁? = e₂.name findings₂? ↔ SameTask e₁ e₂ findings₁? findings₂?) ∧
    ∀ (schedule₁ schedule₂ : Schedule) (report₁ report₂ : Report) (events₁ events₂ : List Event),
      e₁.runId? = none → e₂.runId? = none →
      e₁.runWith schedule₁ findings₁? = .ok (report₁, events₁) →
      e₂.runWith schedule₂ findings₂? = .ok (report₂, events₂) →
      (SameTask e₁ e₂ findings₁? findings₂? → report₁.runId = report₂.runId) ∧
      (report₁.runId = report₂.runId → SameTask e₁ e₂ findings₁? findings₂? ∨
        Collision Sha256.hash (e₁.name findings₁?) (e₂.name findings₂?) ∨
        Collision (Uuid.ofName runNamespace) (Sha256.hash (e₁.name findings₁?))
          (Sha256.hash (e₂.name findings₂?))) := by
  have hname := @name_eq_iff e₁ e₂ _ _ h₁ h₂
  refine ⟨hname, ?_⟩
  intro schedule₁ schedule₂ report₁ report₂ events₁ events₂ hnone₁ hnone₂ hrun₁ hrun₂
  rw [runId_of_runWith hnone₁ hrun₁, runId_of_runWith hnone₂ hrun₂]
  exact ⟨fun hsame => by rw [hname.mpr hsame], fun h => (name_eq_or_collision h).imp_left hname.mp⟩

/-- Two workers that take the last finding first have the task of one worker, as
no cap is below zero; and to have no list of findings is a task of its own. -/
theorem runId_unambiguous_reversed :
    let findings : List Finding :=
      [{ id := "http-no-timeout", code := "é\n", context := [⟨0, "0\n"⟩] }, { id := "nonce" }]
    let e₁ : Engine := { maxFindings := -3, workers := 2 }
    let e₂ : Engine := { maxFindings := 0 }
    Finding.AllValid (some findings) ∧ Finding.AllValid none ∧
    (∃ report₁ report₂ events₁ events₂,
      e₁.runWith (fun _ => List.reverse) (some findings) = .ok (report₁, events₁) ∧
      e₂.run (some findings) = .ok (report₂, events₂) ∧ report₁.runId = report₂.runId) ∧
    e₁.name none ≠ e₂.name (some []) := by
  intro findings e₁ e₂
  have hvalid : Finding.AllValid (some findings) := by
    unfold Finding.AllValid
    decide
  have hnone : Finding.AllValid none := List.forall_mem_nil _
  have hnil : Finding.AllValid (some []) := List.forall_mem_nil _
  have hf : Addressable findings := by unfold Addressable; decide
  have hreverse : Schedule.IsOrder (fun _ => List.reverse) := fun _ places => places.reverse_perm
  have hid : Schedule.IsOrder (fun _ => id) := fun _ _ => .rfl
  obtain ⟨_, hrun₁⟩ := runWith_eq_ok hreverse e₁ rfl (some findings) hf
  obtain ⟨_, hrun₂⟩ := runWith_eq_ok hid e₂ rfl (some findings) hf
  obtain ⟨-, hids⟩ := runId_unambiguous e₁ e₂ _ _ hvalid hvalid
  refine ⟨hvalid, hnone, ⟨_, _, _, _, hrun₁, hrun₂,
    (hids _ _ _ _ _ _ rfl rfl hrun₁ hrun₂).1 ⟨rfl, by decide, rfl⟩⟩, ?_⟩
  intro hname
  cases ((runId_unambiguous e₁ e₂ _ _ hnone hnil).1.mp hname).findings

end Engine

end ScanTriage
