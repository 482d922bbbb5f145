import Mathlib.Data.List.Nodup
import ScanTriage.Proofs.Number.Numerals
import ScanTriage.Proofs.Text.Pieces
import ScanTriage.Proofs.Triage.Consistency
import ScanTriage.Triage.Narrative

/-!
# What narratives tell

The prose of a report says what was observed and nothing else. The topics are
those of the catalogue whose identifier occurs (`observed_occurring`), each with
a paragraph that counts the records its annotated rules decided
(`paragraph_isParagraph`). No text has a line end of its own, so the paragraphs
come back from the narrative where it is cut at its blank lines
(`paragraphs_of`). Only counts and memberships of the records are read, so their
order does not matter.
-/

namespace ScanTriage

open Bytes (newline decimal decimalInt64 Apart paragraphs)

/-- The bytes of a text whose letters are given, in a form that evaluates letter
by letter. -/
theorem Bytes.ofString_ofList (chars : List Char) :
    Bytes.ofString (String.ofList chars) = chars.flatMap String.utf8EncodeChar :=
  List.toList_data_toByteArray

/-- Every note is on a rule of the chain, and no two are on one rule. -/
structure Topic.IsAnnotated (topic : Topic) : Prop where
  rules_nodup : (topic.chain.rules.map (·.name)).Nodup
  notes_nodup : (topic.notes.map (·.rule)).Nodup
  notes_subset : topic.notes.map (·.rule) ⊆ topic.chain.rules.map (·.name)

theorem Topic.all_isAnnotated : ∀ t ∈ Topic.all, t.IsAnnotated := by
  have hall : ∀ t ∈ Topic.all, (t.chain.rules.map (·.name)).Nodup ∧
      (t.notes.map (·.rule)).Nodup ∧ t.notes.map (·.rule) ⊆ t.chain.rules.map (·.name) := by
    decide +kernel
  intro t ht
  obtain ⟨hrules, hnotes, hsubset⟩ := hall t ht
  exact ⟨hrules, hnotes, hsubset⟩

theorem Topic.IsAnnotated.find?_note {topic : Topic} (h : topic.IsAnnotated) {n : Note}
    (hn : n ∈ topic.notes) : topic.notes.find? (·.rule == n.rule) = some n := by
  obtain ⟨m, hm⟩ : ∃ m, topic.notes.find? (·.rule == n.rule) = some m :=
    Option.isSome_iff_exists.mp (List.find?_isSome.mpr ⟨n, hn, by simp⟩)
  have hsame : m.rule = n.rule := by simpa using List.find?_some hm
  rw [hm, List.inj_on_of_nodup_map h.notes_nodup (List.mem_of_find?_eq_some hm) hn hsame]

namespace Narrative

variable {records records' : List TriageRecord}

/-! ## Topics -/

/-- The topics of the catalogue whose identifier occurs, in its order. -/
structure Occurring (records : List TriageRecord) (topics : List Topic) : Prop where
  sublist : topics.Sublist Topic.all
  nodup : (topics.map (·.chain.id)).Nodup
  mem_iff : ∀ t ∈ Topic.all, t ∈ topics ↔ ∃ r ∈ records, r.key.id = t.chain.id

theorem mem_observed {t : Topic} :
    t ∈ observed records ↔ t ∈ Topic.all ∧ ∃ r ∈ records, r.key.id = t.chain.id := by
  simp [observed]

theorem observed_occurring (records : List TriageRecord) :
    Occurring records (observed records) where
  sublist := List.filter_sublist
  nodup := by
    have hids : (Topic.all.map (·.chain.id)).Nodup := by decide +kernel
    exact hids.sublist (List.filter_sublist.map _)
  mem_iff t ht := by rw [mem_observed, and_iff_right ht]

theorem recommendations_of_ne_nil (h : observed records ≠ []) :
    recommendations records = (observed records).map (·.recommendation) := by
  obtain ⟨t, topics, h⟩ := List.exists_cons_of_ne_nil h
  simp [recommendations, h]

theorem recommendations_of_nil (h : observed records = []) :
    recommendations records = [noRecommendation] := by
  simp [recommendations, h]

theorem recommendations_nodup (records : List TriageRecord) : (recommendations records).Nodup := by
  by_cases h : observed records = []
  · rw [recommendations_of_nil h]
    exact List.nodup_singleton _
  · have hall : (Topic.all.map (·.recommendation)).Nodup := by decide +kernel
    rw [recommendations_of_ne_nil h]
    exact hall.sublist (List.filter_sublist.map _)

/-! ## Paragraphs -/

/-- The notes of a topic on the rules that decided a record with its
identifier, in the order of the rules. -/
structure Shown (records : List TriageRecord) (topic : Topic) (notes : List Note) : Prop where
  sublist : (notes.map (·.rule)).Sublist (topic.chain.rules.map (·.name))
  nodup : (notes.map (·.rule)).Nodup
  mem_iff : ∀ n, n ∈ notes ↔ n ∈ topic.notes ∧
    ∃ r ∈ records, r.key.id = topic.chain.id ∧ r.decision.rule = n.rule

/-- A note as it stands in a paragraph, with the number of records of the topic
that its rule decided. -/
def noteText (records : List TriageRecord) (topic : Topic) (n : Note) : Bytes :=
  decimal (records.countP fun r => r.key.id = topic.chain.id ∧ r.decision.rule = n.rule) ++
    n.sentence

/-- A paragraph on a topic: its sentence, and a note for each annotated rule
that decided a record. -/
def IsParagraph (records : List TriageRecord) (topic : Topic) (text : Bytes) : Prop :=
  ∃ notes, Shown records topic notes ∧
    text = topic.narrative ++ notes.flatMap fun n => Bytes.space :: noteText records topic n

def shownOn? (records : List TriageRecord) (topic : Topic) (rule : Rule) : Option Note :=
  if decidedBy records topic.chain.id rule.name = 0 then none
  else topic.notes.find? (·.rule == rule.name)

theorem decidedBy_eq (records : List TriageRecord) (id rule : Bytes) :
    decidedBy records id rule = records.countP fun r => r.key.id = id ∧ r.decision.rule = rule := by
  simp [decidedBy, Bool.decide_and, beq_eq_decide]

theorem decidedBy_ne_zero {id rule : Bytes} :
    decidedBy records id rule ≠ 0 ↔ ∃ r ∈ records, r.key.id = id ∧ r.decision.rule = rule := by
  simp [decidedBy, List.countP_eq_zero]

section Notes

variable {topic : Topic} {rule : Rule} {n : Note}

theorem shownOn?_eq_some (h : shownOn? records topic rule = some n) :
    n ∈ topic.notes ∧ n.rule = rule.name ∧ decidedBy records topic.chain.id rule.name ≠ 0 := by
  rw [shownOn?] at h
  split at h
  · cases h
  · next hcount =>
    exact ⟨List.mem_of_find?_eq_some h, by simpa using List.find?_some h, hcount⟩

theorem note?_eq (records : List TriageRecord) (topic : Topic) (rule : Rule) :
    note? records topic rule = (shownOn? records topic rule).map (noteText records topic) := by
  cases hshown : shownOn? records topic rule with
  | none =>
    rw [shownOn?] at hshown
    simp only [note?, beq_iff_eq]
    split at hshown
    · next hcount => rw [if_pos hcount]; rfl
    · next hcount => rw [if_neg hcount, hshown]; rfl
  | some n =>
    obtain ⟨-, hrule, hcount⟩ := shownOn?_eq_some hshown
    rw [shownOn?, if_neg hcount] at hshown
    simp only [note?, beq_iff_eq, if_neg hcount, hshown, Option.map_some]
    rw [noteText, hrule, decidedBy_eq]

theorem shown_sublist (records : List TriageRecord) (topic : Topic) (rules : List Rule) :
    ((rules.filterMap (shownOn? records topic)).map (·.rule)).Sublist (rules.map (·.name)) := by
  induction rules with
  | nil => exact List.Sublist.slnil
  | cons rule rules ih =>
    rw [List.filterMap_cons]
    split
    · exact ih.cons _
    · next n hn =>
      rw [List.map_cons, List.map_cons, (shownOn?_eq_some hn).2.1]
      exact ih.cons_cons _

theorem shown (h : topic.IsAnnotated) :
    Shown records topic (topic.chain.rules.filterMap (shownOn? records topic)) where
  sublist := shown_sublist records topic _
  nodup := h.rules_nodup.sublist (shown_sublist records topic _)
  mem_iff n := by
    rw [List.mem_filterMap]
    constructor
    · rintro ⟨rule, -, hn⟩
      obtain ⟨hmem, hname, hcount⟩ := shownOn?_eq_some hn
      exact ⟨hmem, hname ▸ decidedBy_ne_zero.mp hcount⟩
    · rintro ⟨hmem, hdecided⟩
      obtain ⟨rule, hrule, hname⟩ :=
        List.mem_map.mp (h.notes_subset (List.mem_map_of_mem hmem))
      refine ⟨rule, hrule, ?_⟩
      rw [shownOn?, hname, if_neg (decidedBy_ne_zero.mpr hdecided), h.find?_note hmem]

theorem paragraph_isParagraph (h : topic.IsAnnotated) :
    IsParagraph records topic (paragraph records topic) := by
  refine ⟨_, shown h, ?_⟩
  have hnotes : topic.chain.rules.filterMap (note? records topic) =
      (topic.chain.rules.filterMap (shownOn? records topic)).map (noteText records topic) := by
    rw [List.map_filterMap]
    exact List.filterMap_congr fun rule _ => note?_eq records topic rule
  have hspace : (" " : Bytes) = [Bytes.space] := by decide
  rw [paragraph, hnotes, Bytes.join_cons, List.flatten_cons, List.map_map, List.flatMap, hspace]
  rfl

end Notes

/-! ## Counts -/

def countsOf (records : List TriageRecord) : Bytes :=
  let count (c : Classification) := decimal (records.countP (·.decision.classification = c))
  "Of " ++ decimal records.length ++ " reviewed findings, " ++ count .confirmed ++
    " are confirmed issues, " ++ count .falsePositive ++ " are likely false positives and " ++
    count .needsReview ++ " need manual review."

theorem counts_ofRecords (h : records.length < 2 ^ 63) :
    counts (.ofRecords records) = countsOf records := by
  have hcount : ∀ holds : TriageRecord → Bool,
      decimalInt64 (Int64.ofNat (records.countP holds)) = decimal (records.countP holds) :=
    fun holds => Bytes.decimalInt64_ofNat (Nat.lt_of_le_of_lt List.countP_le_length h)
  simp only [counts, countsOf, Tally.ofRecords_reviewed, Tally.ofRecords_confirmed,
    Tally.ofRecords_falsePositives, Tally.ofRecords_needsReview, hcount, Bytes.decimalInt64_ofNat h]

/-! ## Single lines without the word -/

def Mentions (text : Bytes) : Prop := ("debugger" : Bytes) <:+: text

instance (text : Bytes) : Decidable (Mentions text) := decidable_of_iff _ Bytes.occurs_iff

/-- A piece of text that can follow any other on its line without bringing in
the word: it neither holds it nor starts with one of its letters. -/
structure Quiet (piece : Bytes) : Prop where
  head : ∀ b ∈ piece.head?, b ∉ ("debugger" : Bytes)
  line : newline ∉ piece
  silent : ¬ Mentions piece

theorem quiet_iff {piece : Bytes} : Quiet piece ↔
    piece.head?.all (· ∉ ("debugger" : Bytes)) = true ∧ newline ∉ piece ∧ ¬ Mentions piece := by
  have hhead : piece.head?.all (· ∉ ("debugger" : Bytes)) = true ↔
      ∀ b ∈ piece.head?, b ∉ ("debugger" : Bytes) := by
    cases piece <;> simp
  rw [hhead]
  exact ⟨fun h => ⟨h.head, h.line, h.silent⟩, fun ⟨h, hline, hsilent⟩ => ⟨h, hline, hsilent⟩⟩

instance (piece : Bytes) : Decidable (Quiet piece) := decidable_of_iff _ quiet_iff.symm

theorem mentions_append {front back : Bytes} (hback : Quiet back) :
    Mentions (front ++ back) ↔ Mentions front := by
  have hapart : Apart ("debugger" : Bytes) [back] := by
    simpa [Apart] using hback.head
  have hpieces : front ++ back = [front, back].flatten := by simp
  rw [Mentions, hpieces, Bytes.infix_flatten_of_apart (by decide) hapart]
  simpa [Mentions] using fun hin => absurd hin hback.silent

namespace Quiet

theorem append {front back : Bytes} (hfront : Quiet front) (hback : Quiet back) :
    Quiet (front ++ back) where
  head b hb := by
    cases front with
    | nil => exact hback.head b hb
    | cons c front => exact hfront.head b hb
  line := List.mem_append.not.mpr (not_or.mpr ⟨hfront.line, hback.line⟩)
  silent := (mentions_append hback).not.mpr hfront.silent

theorem flatMap {α : Type} {f : α → Bytes} {xs : List α} (h : ∀ x ∈ xs, Quiet (f x)) :
    Quiet (xs.flatMap f) := by
  induction xs with
  | nil => exact (by decide +kernel : Quiet [])
  | cons x xs ih =>
    obtain ⟨hx, hxs⟩ := List.forall_mem_cons.mp h
    exact hx.append (ih hxs)

theorem of_digits {text : Bytes} (h : ∀ b ∈ text, b = Bytes.minus ∨ Bytes.isDigit b = true) :
    Quiet text := by
  have hword : ∀ b ∈ ("debugger" : Bytes), b ≠ Bytes.minus ∧ Bytes.isDigit b = false := by
    decide +kernel
  have hnone : ∀ b ∈ ("debugger" : Bytes), b ∉ text := by
    intro b hb hmem
    rcases h b hmem with rfl | hdigit
    · exact (hword _ hb).1 rfl
    · exact absurd hdigit (by simp [(hword b hb).2])
  refine ⟨fun b hhead hb => hnone b hb (List.mem_of_head? hhead), fun hmem => ?_, fun hin => ?_⟩
  · rcases h newline hmem with hb | hb <;> exact absurd hb (by decide)
  · exact hnone 0x64 (by decide) (hin.subset (by decide))

theorem decimal (n : Nat) : Quiet (decimal n) :=
  of_digits fun b hb => .inr (Bytes.isDigit_decimal n b hb)

theorem decimalInt64 (n : Int64) : Quiet (decimalInt64 n) := by
  refine of_digits fun b hb => ?_
  rcases Integer.decimalInt64_cases n with ⟨k, -, -, hn⟩ | ⟨k, -, -, -, hn⟩ <;> rw [hn] at hb
  · exact .inr (Bytes.isDigit_decimal k b hb)
  · rcases List.mem_cons.mp hb with rfl | hb
    · exact .inl rfl
    · exact .inr (Bytes.isDigit_decimal k b hb)

theorem counts (t : Tally) : Quiet (counts t) :=
  (((((((Quiet.append (by decide +kernel) (.decimalInt64 _)).append (by decide +kernel)).append
    (.decimalInt64 _)).append (by decide +kernel)).append (.decimalInt64 _)).append
    (by decide +kernel)).append (.decimalInt64 _)).append (by decide +kernel)

theorem thirdParty (records : List TriageRecord) : ∀ p ∈ thirdParty records, Quiet p := by
  intro p hp
  simp only [Narrative.thirdParty] at hp
  split at hp
  · cases hp
  · rw [List.mem_singleton.mp hp]
    exact (Quiet.decimal _).append (by decide +kernel)

end Quiet

/-- No text of the catalogue has a line end, and only those on debug code have
the word. -/
theorem catalogue_texts : ∀ t ∈ Topic.all, newline ∉ t.narrative ∧
    (Mentions t.narrative ↔ t.chain.id = Rules.debugCode.id) ∧
    (Mentions t.recommendation ↔ t.chain.id = Rules.debugCode.id) ∧
    ∀ n ∈ t.notes, Quiet n.sentence := by
  -- The letters are compared: the bytes of so many literals would be slow to compute.
  unfold Topic.all
  repeat rw [Bytes.ofString_ofList]
  decide +kernel

namespace IsParagraph

variable {t : Topic} {text : Bytes}

theorem quiet_notes (ht : t ∈ Topic.all) (h : IsParagraph records t text) :
    ∃ notes, Quiet notes ∧ text = t.narrative ++ notes := by
  obtain ⟨notes, hshown, rfl⟩ := h
  refine ⟨_, .flatMap fun n hn => ?_, rfl⟩
  have hsentence : Quiet n.sentence :=
    (catalogue_texts t ht).2.2.2 n ((hshown.mem_iff n).mp hn).1
  exact Quiet.append (by decide +kernel : Quiet [Bytes.space]) ((Quiet.decimal _).append hsentence)

theorem line (ht : t ∈ Topic.all) (h : IsParagraph records t text) : newline ∉ text := by
  obtain ⟨notes, hnotes, rfl⟩ := h.quiet_notes ht
  exact List.mem_append.not.mpr (not_or.mpr ⟨(catalogue_texts t ht).1, hnotes.line⟩)

theorem mentions_iff (ht : t ∈ Topic.all) (h : IsParagraph records t text) :
    Mentions text ↔ t.chain.id = Rules.debugCode.id := by
  obtain ⟨notes, hnotes, rfl⟩ := h.quiet_notes ht
  exact (mentions_append hnotes).trans (catalogue_texts t ht).2.1

end IsParagraph

/-! ## The narrative -/

def parts (records : List TriageRecord) : List Bytes :=
  intro :: counts (.ofRecords records) :: (observed records).map (paragraph records) ++
    thirdParty records

theorem of_eq_join (h : records ≠ []) : of records = Bytes.join "\n\n" (parts records) := by
  rw [of, if_neg (by simpa using h), parts]

theorem observed_paragraph {t : Topic} (ht : t ∈ observed records) :
    t ∈ Topic.all ∧ IsParagraph records t (paragraph records t) := by
  have hmem := (mem_observed.mp ht).1
  exact ⟨hmem, paragraph_isParagraph (Topic.all_isAnnotated t hmem)⟩

theorem mem_parts {p : Bytes} (hp : p ∈ parts records) :
    Quiet p ∨ ∃ t ∈ observed records, p = paragraph records t := by
  simp only [parts, List.cons_append, List.mem_cons, List.mem_append, List.mem_map] at hp
  rcases hp with rfl | rfl | ⟨t, ht, rfl⟩ | hp
  · exact .inl (by decide +kernel)
  · exact .inl (.counts _)
  · exact .inr ⟨t, ht, rfl⟩
  · exact .inl (.thirdParty records p hp)

theorem paragraphs_of (h : records ≠ []) : paragraphs (of records) = parts records := by
  rw [of_eq_join h]
  refine Bytes.paragraphs_join (by simp [parts]) fun p hp => ?_
  rcases mem_parts hp with hquiet | ⟨t, ht, rfl⟩
  · exact hquiet.line
  · obtain ⟨hmem, hparagraph⟩ := observed_paragraph ht
    exact hparagraph.line hmem

theorem exists_observed_debugCode : (∃ t ∈ observed records, t.chain.id = Rules.debugCode.id) ↔
    ∃ r ∈ records, r.key.id = Rules.debugCode.id := by
  obtain ⟨t, ht, hid⟩ : ∃ t ∈ Topic.all, t.chain.id = Rules.debugCode.id :=
    ⟨_, List.mem_cons_self, rfl⟩
  constructor
  · rintro ⟨t, ht, hid⟩
    exact hid ▸ (mem_observed.mp ht).2
  · intro h
    exact ⟨t, mem_observed.mpr ⟨ht, hid ▸ h⟩, hid⟩

theorem mentions_of : Mentions (of records) ↔ ∃ r ∈ records, r.key.id = Rules.debugCode.id := by
  by_cases hne : records = []
  · subst hne
    have hsilent : ¬ Mentions (of []) := by decide +kernel
    simpa using hsilent
  rw [← exists_observed_debugCode, of_eq_join hne, Mentions,
    Bytes.infix_join_iff (by decide) (by decide +kernel) (by decide)]
  constructor
  · rintro ⟨p, hp, hin⟩
    rcases mem_parts hp with hquiet | ⟨t, ht, rfl⟩
    · exact absurd hin hquiet.silent
    · obtain ⟨hmem, hparagraph⟩ := observed_paragraph ht
      exact ⟨t, ht, (hparagraph.mentions_iff hmem).mp hin⟩
  · rintro ⟨t, ht, hid⟩
    obtain ⟨hmem, hparagraph⟩ := observed_paragraph ht
    refine ⟨paragraph records t, ?_, (hparagraph.mentions_iff hmem).mpr hid⟩
    simp only [parts, List.cons_append, List.mem_cons, List.mem_append, List.mem_map]
    exact .inr (.inr (.inl ⟨t, ht, rfl⟩))

theorem mentions_recommendations : (∃ text ∈ recommendations records, Mentions text) ↔
    ∃ r ∈ records, r.key.id = Rules.debugCode.id := by
  have htext : ∀ t ∈ observed records,
      (Mentions t.recommendation ↔ t.chain.id = Rules.debugCode.id) :=
    fun t ht => (catalogue_texts t (mem_observed.mp ht).1).2.2.1
  rw [← exists_observed_debugCode]
  by_cases h : observed records = []
  · have hsilent : ¬ Mentions noRecommendation := by decide +kernel
    simpa [recommendations_of_nil h, h] using hsilent
  · rw [recommendations_of_ne_nil h]
    simp only [List.mem_map, exists_exists_and_eq_and]
    exact exists_congr fun t => and_congr_right fun ht => htext t ht

/-! ## Order of the records -/

attribute [ext] Tally

section Perm

variable (h : records.Perm records')
include h

theorem observed_perm : observed records = observed records' := by
  simp only [observed, h.any_eq]

theorem paragraph_perm (t : Topic) : paragraph records t = paragraph records' t := by
  have hdecided : decidedBy records = decidedBy records' :=
    funext fun id => funext fun rule => h.countP_eq _
  have hnote : note? records t = note? records' t := by
    unfold note?
    rw [hdecided]
  rw [paragraph, paragraph, hnote]

theorem ofRecords_perm : Tally.ofRecords records = Tally.ofRecords records' := by
  ext1
  · rw [Tally.ofRecords_reviewed, Tally.ofRecords_reviewed, h.length_eq]
  · rw [Tally.ofRecords_confirmed, Tally.ofRecords_confirmed, h.countP_eq]
  · rw [Tally.ofRecords_falsePositives, Tally.ofRecords_falsePositives, h.countP_eq]
  · rw [Tally.ofRecords_needsReview, Tally.ofRecords_needsReview, h.countP_eq]
  · rw [Tally.ofRecords_high, Tally.ofRecords_high, h.countP_eq]
  · rw [Tally.ofRecords_medium, Tally.ofRecords_medium, h.countP_eq]
  · rw [Tally.ofRecords_low, Tally.ofRecords_low, h.countP_eq]

theorem recommendations_perm : recommendations records = recommendations records' := by
  rw [recommendations, recommendations, observed_perm h]

theorem of_perm : of records = of records' := by
  have hparagraph : paragraph records = paragraph records' := funext (paragraph_perm h)
  simp only [of, h.isEmpty_eq, observed_perm h, hparagraph, ofRecords_perm h, thirdParty,
    h.countP_eq]

end Perm

/-! ## What is told -/

/-- The recommendations of some topics, or the general one if there are none. -/
def IsAdvice (topics : List Topic) (texts : List Bytes) : Prop :=
  texts.Nodup ∧ (topics = [] ∧ texts = [noRecommendation] ∨
    topics ≠ [] ∧ texts = topics.map (·.recommendation))

/-- The remark on other people's code: none, or one with the number of its
records. -/
def IsRemark (n : Nat) (texts : List Bytes) : Prop :=
  n = 0 ∧ texts = [] ∨ 1 ≤ n ∧ texts = [decimal n ++
    " of the reviewed findings are in bundled/minified or third-party code; these are marked Needs Review unless a clear mitigation is visible."]

/-- The paragraphs of a narrative on some topics. The counts are those of the
records, as long as a 64-bit integer can hold them. -/
def IsAccount (records : List TriageRecord) (topics : List Topic) (account : List Bytes) : Prop :=
  ∃ sentence texts remark, account = intro :: sentence :: texts ++ remark ∧
    (records.length < 2 ^ 63 → sentence = countsOf records) ∧
    List.Forall₂ (IsParagraph records) topics texts ∧
    IsRemark (records.countP (·.thirdParty)) remark

theorem recommendations_isAdvice (records : List TriageRecord) :
    IsAdvice (observed records) (recommendations records) := by
  refine ⟨recommendations_nodup records, ?_⟩
  by_cases h : observed records = []
  · exact .inl ⟨h, recommendations_of_nil h⟩
  · exact .inr ⟨h, recommendations_of_ne_nil h⟩

theorem thirdParty_isRemark (records : List TriageRecord) :
    IsRemark (records.countP (·.thirdParty)) (thirdParty records) := by
  simp only [thirdParty, beq_iff_eq]
  split
  · next h => exact .inl ⟨h, rfl⟩
  · next h => exact .inr ⟨Nat.one_le_iff_ne_zero.mpr h, rfl⟩

theorem parts_isAccount (records : List TriageRecord) :
    IsAccount records (observed records) (parts records) := by
  refine ⟨_, _, _, rfl, counts_ofRecords, ?_, thirdParty_isRemark records⟩
  rw [List.forall₂_map_right_iff, List.forall₂_same]
  exact fun t ht => (observed_paragraph ht).2

/-- Narrative and recommendations tell exactly what occurs among the records,
whatever their order, and speak of debuggers only where debug code was found. -/
theorem tells_occurring (records : List TriageRecord) :
    (∃ topics, Occurring records topics ∧ IsAdvice topics (recommendations records) ∧
      (records ≠ [] → IsAccount records topics (paragraphs (of records)))) ∧
    (∀ records', records.Perm records' →
      of records = of records' ∧ recommendations records = recommendations records' ∧
        Tally.ofRecords records = Tally.ofRecords records') ∧
    (Mentions (of records) ↔ ∃ r ∈ records, r.key.id = Rules.debugCode.id) ∧
    ((∃ text ∈ recommendations records, Mentions text) ↔
      ∃ r ∈ records, r.key.id = Rules.debugCode.id) := by
  refine ⟨⟨observed records, observed_occurring records, recommendations_isAdvice records, ?_⟩,
    fun records' h => ⟨of_perm h, recommendations_perm h, ofRecords_perm h⟩,
    mentions_of, mentions_recommendations⟩
  intro hne
  rw [paragraphs_of hne]
  exact parts_isAccount records

/-- Two constant queries, one of them in a library, and a finding that no chain
knows but whose rule has the name of an annotated one. -/
def constantQueries : List TriageRecord :=
  let cleared : Decision := ⟨⟨.falsePositive, .high, "constant"⟩, "constant-found-rows"⟩
  [ { key := ⟨"wpdb-query-no-prepare", "a.php", 3⟩, decision := cleared },
    { key := ⟨"unknown", "b.php", 4⟩, decision := cleared },
    { key := ⟨"wpdb-query-no-prepare", "vendor/c.php", 5⟩, decision := cleared,
      thirdParty := true } ]

theorem tells_occurring_constantQueries :
    (∃ topics texts remark, Occurring constantQueries topics ∧
      paragraphs (of constantQueries) = intro :: Bytes.ofString
        "Of 3 reviewed findings, 0 are confirmed issues, 3 are likely false positives and 0 need manual review." ::
          texts ++ remark ∧
      List.Forall₂ (IsParagraph constantQueries) topics texts ∧ IsRemark 1 remark) ∧
    of constantQueries = of constantQueries.reverse ∧ ¬ Mentions (of constantQueries) := by
  obtain ⟨⟨topics, hoccurring, -, haccount⟩, hperm, hmentions, -⟩ :=
    tells_occurring constantQueries
  obtain ⟨sentence, texts, remark, hparts, hcounts, htexts, hremark⟩ := haccount (by decide)
  rw [hcounts (by decide)] at hparts
  refine ⟨⟨topics, texts, remark, hoccurring, hparts.trans ?_, htexts, hremark⟩,
    (hperm _ (List.reverse_perm _).symm).1, ?_⟩
  · have hsentence : countsOf constantQueries = Bytes.ofString
        "Of 3 reviewed findings, 0 are confirmed issues, 3 are likely false positives and 0 need manual review." := by
      decide +kernel
    rw [hsentence]
  · rw [hmentions]
    decide +kernel

end Narrative
end ScanTriage
