import ScanTriage.Proofs.Annotate.Injected

/-!
# What injecting leaves alone

A text differs once from its source if one piece of it was exchanged or
inserted and every other byte is the same (`DiffersOnce`). Injecting a report is
such a change where the key is there already, and where an object has no white
space around it; nowhere else (`inject_differsOnce_iff`). What is lost of an
object is the white space around it. A number, a string or a word is lost whole.
-/

namespace ScanTriage

namespace Annotate

open Json (Glimpse ObjectText Blank)

variable {data out : Bytes} {r : Report}

/-- The texts differ in one piece: the value of the first member of the key,
which was exchanged for the encoding, or a member of the key that was inserted,
with a comma in front of it or without. -/
def DiffersOnce (data out : Bytes) (r : Report) : Prop :=
  ∃ p old new q, data = p ++ (old ++ q) ∧ out = p ++ (new ++ q) ∧
    ((∃ found, (Glimpse.members data).find? (·.name == key) = some found ∧
        old = found.value.raw ∧ q = found.rest ∧ new = encoding r) ∨
      (old = [] ∧ ∃ comma ∈ [[], [Bytes.comma]], new = comma ++ Json.memberText key (encoding r)))

/-- An inserted member starts with its comma or with its quote. -/
theorem exists_inserted_cons {comma : Bytes} (h : comma ∈ [[], [Bytes.comma]]) (raw : Bytes) :
    ∃ b t, comma ++ Json.memberText key raw = b :: t ∧ b ≠ Bytes.openBrace ∧
      b ≠ Bytes.closeBrace := by
  simp only [List.mem_cons, List.not_mem_nil, or_false] at h
  rcases h with rfl | rfl
  · exact ⟨Bytes.quote, _, rfl, by decide, by decide⟩
  · exact ⟨Bytes.comma, _, rfl, by decide, by decide⟩

/-- Where the key is missing and the result is an object, a member can only
have been inserted behind an opening brace. -/
theorem DiffersOnce.inserted (hnone : (Glimpse.members data).find? (·.name == key) = none)
    (hopen : out.head? = some Bytes.openBrace) (h : DiffersOnce data out r) :
    ∃ p new q, data = p ++ q ∧ out = p ++ (new ++ q) ∧ p.head? = some Bytes.openBrace ∧
      ∃ comma ∈ [[], [Bytes.comma]], new = comma ++ Json.memberText key (encoding r) := by
  obtain ⟨p, old, new, q, hdata, hout, ⟨found, hfound, -⟩ | ⟨rfl, comma, hcomma, rfl⟩⟩ := h
  · rw [hnone] at hfound
    cases hfound
  · refine ⟨p, _, q, hdata, hout, ?_, comma, hcomma, rfl⟩
    cases p with
    | nil =>
      obtain ⟨b, t, hnew, hb, -⟩ := exists_inserted_cons hcomma (encoding r)
      rw [hout, hnew] at hopen
      exact absurd (Option.some.inj hopen) hb
    | cons b p =>
      rw [hout] at hopen
      exact hopen

/-! ## Objects -/

section

variable {d : ObjectText}

theorem front_eq_nil (h : d.text.head? = some Bytes.openBrace) : d.front = [] := by
  cases hfront : d.front with
  | nil => rfl
  | cons b front =>
    have hb : Json.isBlank b = true := d.front_blank b (by simp [hfront])
    rw [ObjectText.text, hfront] at h
    obtain rfl := Option.some.inj h
    exact absurd hb (by decide)

def bare (d : ObjectText) : ObjectText :=
  { d with front := [], back := [], front_blank := .nil, back_blank := .nil }

theorem text_eq_bare (d : ObjectText) : d.text = d.front ++ ((bare d).text ++ d.back) := by
  simp [ObjectText.text, ObjectText.inside_eq, bare]

theorem back_eq_nil (h : d.text.getLast? = some Bytes.closeBrace) : d.back = [] := by
  rcases List.eq_nil_or_concat d.back with hback | ⟨back, b, hback⟩
  · exact hback
  · have hb : Json.isBlank b = true := d.back_blank b (by simp [hback])
    rw [ObjectText.text, ObjectText.inside_eq, hback] at h
    simp only [List.concat_eq_append] at h
    rw [← List.cons_append, ← List.append_assoc, ← List.cons_append, ← List.append_assoc,
      List.getLast?_concat] at h
    obtain rfl := Option.some.inj h
    exact absurd hb (by decide)

/-- In an object with the key the first value under it is exchanged. -/
theorem differsOnce_exchanged {l ms : List Json.MemberText} {m : Json.MemberText}
    (hms : d.members = l ++ m :: ms) (hl : ∀ x ∈ l, x.name ≠ key) (hm : m.name = key) (r : Report) :
    DiffersOnce d.text (d.exchanged l m ms (isValue_encoding r)).text r := by
  refine ⟨d.upToValue l m, m.value, encoding r, m.after ++ ObjectText.tail ms d.back,
    d.text_split hms, d.text_exchanged l ms m (isValue_encoding r), .inl ?_⟩
  refine ⟨⟨m.name, .ofText m.value, m.after ++ ObjectText.tail ms d.back⟩, ?_, ?_, rfl, rfl⟩
  · rw [d.members_text, hms, ObjectText.find?_readings_append hl hm]
  · exact (Glimpse.ofText_raw m.isValue.text).symm

/-- An object without the key and without white space around it gets a member
before its closing brace. -/
theorem differsOnce_extended (hfront : d.front = []) (hback : d.back = []) (r : Report) :
    DiffersOnce d.text (d.extended key (isValue_encoding r)).text r := by
  refine ⟨Bytes.openBrace :: ObjectText.content d.inner d.members, [],
    (if d.members.isEmpty then [] else [Bytes.comma]) ++ Json.memberText key (encoding r),
    [Bytes.closeBrace], ?_, ?_, .inr ⟨rfl, _, ?_, rfl⟩⟩
  · rw [ObjectText.text, ObjectText.inside_eq, hfront, hback]
    simp
  · rw [ObjectText.text_extended]
    simp
  · split <;> simp

theorem differsOnce_extended_iff (hnone : (Glimpse.members d.text).find? (·.name == key) = none) :
    DiffersOnce d.text (d.extended key (isValue_encoding r)).text r ↔
      d.text.head? = some Bytes.openBrace ∧ d.text.getLast? = some Bytes.closeBrace := by
  constructor
  · intro h
    have hopen : (d.extended key (isValue_encoding r)).text.head? = some Bytes.openBrace := by
      rw [ObjectText.text_extended]
      rfl
    obtain ⟨p, new, q, hdata, hout, hp, comma, hcomma, rfl⟩ := h.inserted hnone hopen
    have hhead : d.text.head? = some Bytes.openBrace := by
      rw [hdata, List.head?_append, hp, Option.some_or]
    refine ⟨hhead, ?_⟩
    rw [ObjectText.text_extended] at hout
    by_cases hq : q = []
    · -- The member would stand behind the closing brace, not before it.
      subst hq
      rw [List.append_nil] at hdata hout
      rw [← hdata, ObjectText.text, front_eq_nil hhead, ObjectText.inside_eq] at hout
      simp only [List.nil_append, List.cons_append, List.cons.injEq, true_and,
        List.append_assoc, List.append_cancel_left_eq] at hout
      have hcomma' : (if d.members.isEmpty then [] else [Bytes.comma]) ∈ [[], [Bytes.comma]] := by
        split <;> simp
      obtain ⟨b, t, hnew, -, hb⟩ := exists_inserted_cons hcomma' (encoding r)
      rw [← List.append_assoc, hnew, List.cons_append] at hout
      exact absurd (List.cons.inj hout).1 hb
    · have hlast := congrArg List.getLast? hout
      rw [← List.append_assoc p, List.getLast?_append_of_ne_nil _ hq] at hlast
      rw [hdata, List.getLast?_append_of_ne_nil _ hq, ← hlast, ← List.append_assoc,
        ← List.cons_append, List.getLast?_concat]
  · rintro ⟨hhead, hlast⟩
    exact differsOnce_extended (front_eq_nil hhead) (back_eq_nil hlast) r

end

/-! ## All texts -/

def HasKey (data : Bytes) : Prop := ∃ m ∈ Glimpse.members data, m.name = key

theorem find?_eq_none_iff : (Glimpse.members data).find? (·.name == key) = none ↔ ¬ HasKey data := by
  simp [HasKey, List.find?_eq_none]

theorem not_differsOnce_singleMember (hdata : Json.isValid data = true)
    (hobject : (Json.skipBlank data).head? ≠ some Bytes.openBrace) :
    ¬ DiffersOnce data (Json.singleMember key (encoding r)) r := by
  intro h
  have hnone : (Glimpse.members data).find? (·.name == key) = none := by
    rw [Json.members_eq_nil hdata hobject, List.find?_nil]
  obtain ⟨p, new, q, rfl, -, hp, -⟩ := h.inserted hnone rfl
  obtain ⟨t, rfl⟩ := List.head?_eq_some_iff.mp hp
  exact hobject rfl

/-- Injecting a report changes one piece and keeps every other byte exactly
where the key is there already or the text is an object from its first byte to
its last. Of any other object the white space around it is dropped, and what is
no object is dropped whole. -/
theorem inject_differsOnce_iff (hdata : Json.isValid data = true) (h : inject data r = .ok out) :
    (DiffersOnce data out r ↔ HasKey data ∨
      data.head? = some Bytes.openBrace ∧ data.getLast? = some Bytes.closeBrace) ∧
    ((Json.skipBlank data).head? = some Bytes.openBrace → ∃ front body back,
      data = front ++ (body ++ back) ∧ Blank front ∧ Blank back ∧ DiffersOnce body out r) ∧
    ((Json.skipBlank data).head? ≠ some Bytes.openBrace →
      out = Json.singleMember key (encoding r)) := by
  by_cases hobject : (Json.skipBlank data).head? = some Bytes.openBrace
  · obtain ⟨d, rfl⟩ := Json.exists_objectText hdata hobject
    suffices hparts : (DiffersOnce d.text out r ↔ HasKey d.text ∨
        d.text.head? = some Bytes.openBrace ∧ d.text.getLast? = some Bytes.closeBrace) ∧
        ∃ front body back, d.text = front ++ (body ++ back) ∧ Blank front ∧ Blank back ∧
          DiffersOnce body out r from
      ⟨hparts.1, fun _ => hparts.2, fun hno => absurd hobject hno⟩
    cases hfind : (Glimpse.members d.text).find? (·.name == key) with
    | some found =>
      have hkey : HasKey d.text := not_not.mp fun hno => by
        rw [find?_eq_none_iff.mpr hno] at hfind
        cases hfind
      rw [d.members_text] at hfind
      obtain ⟨l, m, ms, hms, hl, hm, -⟩ := ObjectText.find?_readings hfind
      have hset := d.setMember_split (isValue_encoding r) hms hl hm
      obtain rfl := Except.ok.inj (hset.symm.trans h)
      have honce := differsOnce_exchanged hms hl hm r
      exact ⟨iff_of_true honce (.inl hkey), [], _, [], by simp, .nil, .nil, honce⟩
    | none =>
      have hread := hfind
      rw [d.members_text] at hread
      obtain rfl := Except.ok.inj ((d.setMember_extend (isValue_encoding r) hread).symm.trans h)
      constructor
      · rw [differsOnce_extended_iff hfind, or_iff_right (find?_eq_none_iff.mp hfind)]
      · refine ⟨d.front, (bare d).text, d.back, text_eq_bare d, d.front_blank, d.back_blank, ?_⟩
        exact differsOnce_extended rfl rfl r
  · have hout := Json.setMember_eq_single _ _ hdata hobject h
    have hno : ¬ (HasKey data ∨
        data.head? = some Bytes.openBrace ∧ data.getLast? = some Bytes.closeBrace) := by
      rintro (⟨m, hm, -⟩ | ⟨hhead, -⟩)
      · rw [Json.members_eq_nil hdata hobject] at hm
        cases hm
      · obtain ⟨t, rfl⟩ := List.head?_eq_some_iff.mp hhead
        exact hobject rfl
    refine ⟨iff_of_false ?_ hno, fun hyes => absurd hyes hobject, fun _ => hout⟩
    rw [hout]
    exact not_differsOnce_singleMember hdata hobject

/-- A line break behind the object is lost. -/
theorem inject_drops_newline :
    Json.isValid "\x7b\"findings\":[]\x7d\n" = true ∧
    ∃ out, inject "\x7b\"findings\":[]\x7d\n" oneFinding = .ok out ∧
      ¬ DiffersOnce "\x7b\"findings\":[]\x7d\n" out oneFinding := by
  refine ⟨by decide, _, rfl, ?_⟩
  rintro ⟨p, old, new, q, hdata, hout, ⟨found, hfound, -⟩ | ⟨rfl, -⟩⟩
  · cases hfound
  · have hlost : Bytes.newline ∈ p ++ (new ++ q) := by
      have hmem : Bytes.newline ∈ p ++ ([] ++ q) := by
        rw [← hdata]
        decide
      simp only [List.nil_append, List.mem_append] at hmem ⊢
      exact hmem.imp_right .inr
    rw [← hout] at hlost
    exact absurd hlost (by decide +kernel)

/-- A text with its key in another spelling, which gets its value exchanged. -/
theorem inject_differsOnce_respelled :
    ∃ out, inject respelled oneFinding = .ok out ∧ DiffersOnce respelled out oneFinding := by
  obtain ⟨out, hout⟩ : ∃ out, inject respelled oneFinding = .ok out := ⟨_, rfl⟩
  obtain ⟨hiff, -⟩ := inject_differsOnce_iff (by decide) hout
  have hany : (Glimpse.members respelled).any (·.name == key) = true := by decide
  have hkey : HasKey respelled := by simpa [HasKey] using hany
  exact ⟨out, hout, hiff.mpr (.inl hkey)⟩

end Annotate

end ScanTriage
