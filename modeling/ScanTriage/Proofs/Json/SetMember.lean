import ScanTriage.Json.Member
import ScanTriage.Proofs.Json.Written

/-!
# Setting one member

On the text of an object, `setMember` exchanges the value of the first member
of the name and adds a member at the end if there is none: the result is again
the text of an object, and its members are those of `setFirst`
(`ObjectText.setMember_text`). A valid text that is no object has no members for
the tolerant reader, also where braces stand in a string (`members_eq_nil`).
Setting a member twice is setting it once with the second value
(`setMember_again`).
-/

namespace ScanTriage

namespace Json

/-- Raw members with the first value called `name` exchanged, or with one
member more if none is called so. -/
def setFirst (name raw : Bytes) : List (Bytes × Bytes) → List (Bytes × Bytes)
  | [] => [(writeString true name, raw)]
  | (rawName, value) :: members =>
    if nameOf rawName == name then (rawName, raw) :: members
    else (rawName, value) :: setFirst name raw members

theorem setFirst_append {name raw : Bytes} {ms ms' : List (Bytes × Bytes)}
    (h : ∀ m ∈ ms, nameOf m.1 ≠ name) :
    setFirst name raw (ms ++ ms') = ms ++ setFirst name raw ms' := by
  induction ms with
  | nil => rfl
  | cons m ms ih =>
    obtain ⟨hm, hms⟩ := List.forall_mem_cons.mp h
    simp [setFirst, hm, ih hms]

section

variable {name other raw : Bytes} (hname : nameOf (writeString true name) = name)

include hname

theorem rawValue?_setFirst (ms : List (Bytes × Bytes)) :
    rawValue? name (setFirst name raw ms) = some raw := by
  induction ms with
  | nil => simp [setFirst, rawValue?, hname]
  | cons m ms ih =>
    by_cases hm : nameOf m.1 = name
    · simp [setFirst, rawValue?, hm]
    · simpa [setFirst, rawValue?, hm] using ih

/-- Members of other names are the same as before. -/
theorem filter_setFirst (ms : List (Bytes × Bytes)) :
    (setFirst name raw ms).filter (fun m => nameOf m.1 != name) =
      ms.filter fun m => nameOf m.1 != name := by
  induction ms with
  | nil => simp [setFirst, hname]
  | cons m ms ih =>
    by_cases hm : nameOf m.1 = name
    · simp [setFirst, hm]
    · simp [setFirst, hm, ih]

/-- The other names keep their values. -/
theorem rawValue?_setFirst_of_ne (hne : other ≠ name) (ms : List (Bytes × Bytes)) :
    rawValue? other (setFirst name raw ms) = rawValue? other ms := by
  induction ms with
  | nil => simp [setFirst, rawValue?, hname, hne.symm]
  | cons m ms ih =>
    by_cases hm : nameOf m.1 = name
    · simp [setFirst, rawValue?, hm, hne.symm]
    · by_cases hm' : nameOf m.1 = other
      · simp [setFirst, rawValue?, hm', hne]
      · simpa [setFirst, rawValue?, hm, hm'] using ih

end

namespace ObjectText

variable {name raw inner back : Bytes}

/-! ## Exchanging a value -/

/-- The part of a member in front of its value. -/
def opening (m : MemberText) : Bytes :=
  m.before ++ Bytes.quote :: (m.body ++ Bytes.quote :: (m.beforeColon ++
    Bytes.colon :: m.afterColon))

def leading : List MemberText → Bytes
  | [] => []
  | m :: ms => m.text ++ (ms.flatMap (fun m => Bytes.comma :: m.text) ++ [Bytes.comma])

theorem inside_append (l : List MemberText) (m : MemberText) (r : List MemberText) :
    inside inner (l ++ m :: r) back =
      leading l ++ (opening m ++ (m.value ++ (m.after ++ tail r back))) := by
  cases l with
  | nil => simp [inside, leading, opening, MemberText.text]
  | cons x l => simp [inside, leading, opening, MemberText.text, tail]

theorem find?_readings {ms : List MemberText} {found : Glimpse.Member}
    (h : (readings ms back).find? (·.name == name) = some found) :
    ∃ l m r, ms = l ++ m :: r ∧ (∀ x ∈ l, x.name ≠ name) ∧ m.name = name ∧
      found = ⟨m.name, Glimpse.ofText m.value, m.after ++ tail r back⟩ := by
  induction ms with
  | nil => cases h
  | cons m ms ih =>
    rw [readings, List.find?_cons] at h
    split at h
    · next hm =>
      obtain rfl := Option.some.inj h
      exact ⟨[], m, ms, rfl, by simp, eq_of_beq hm, rfl⟩
    · next hm =>
      obtain ⟨l, m', r, rfl, hl, hm', rfl⟩ := ih h
      refine ⟨m :: l, m', r, rfl, List.forall_mem_cons.mpr ⟨by simpa using hm, hl⟩, hm', rfl⟩

theorem exchange_append (p q name raw : Bytes) (value : Glimpse) :
    exchange (p ++ (value.raw ++ q)) ⟨name, value, q⟩ raw = p ++ (raw ++ q) := by
  have hlen : (p ++ (value.raw ++ q)).length - value.raw.length - q.length = p.length := by
    simp only [List.length_append]
    omega
  rw [exchange, hlen, List.take_left, List.append_assoc]

def withValue (m : MemberText) (hraw : IsValue raw) : MemberText :=
  { m with value := raw, isValue := hraw }

def exchanged (d : ObjectText) (l : List MemberText) (m : MemberText) (r : List MemberText)
    (hraw : IsValue raw) : ObjectText :=
  { d with members := l ++ withValue m hraw :: r }

def upToValue (d : ObjectText) (l : List MemberText) (m : MemberText) : Bytes :=
  d.front ++ Bytes.openBrace :: (leading l ++ opening m)

theorem text_split (d : ObjectText) {l r : List MemberText} {m : MemberText}
    (hms : d.members = l ++ m :: r) :
    d.text = d.upToValue l m ++ (m.value ++ (m.after ++ tail r d.back)) := by
  rw [text, hms, inside_append]
  simp [upToValue]

theorem text_exchanged (d : ObjectText) (l r : List MemberText) (m : MemberText)
    (hraw : IsValue raw) :
    (d.exchanged l m r hraw).text = d.upToValue l m ++ (raw ++ (m.after ++ tail r d.back)) :=
  (d.exchanged l m r hraw).text_split rfl

theorem setMember_exchange (d : ObjectText) {l r : List MemberText} {m : MemberText}
    (hraw : IsValue raw) (hms : d.members = l ++ m :: r)
    (hfind : (readings d.members d.back).find? (·.name == name) =
      some ⟨m.name, Glimpse.ofText m.value, m.after ++ tail r d.back⟩) :
    setMember name raw d.text = .ok (d.exchanged l m r hraw).text := by
  have hold : d.text =
      d.upToValue l m ++ ((Glimpse.ofText m.value).raw ++ (m.after ++ tail r d.back)) := by
    rw [d.text_split hms, Glimpse.ofText_raw m.isValue.text]
  rw [setMember, members_text, hfind, text_exchanged, hold]
  exact congrArg Except.ok (exchange_append ..)

/-! ## Adding a member -/

def content (inner : Bytes) : List MemberText → Bytes
  | [] => inner
  | m :: ms => m.text ++ ms.flatMap fun m => Bytes.comma :: m.text

theorem inside_eq (ms : List MemberText) :
    inside inner ms back = content inner ms ++ Bytes.closeBrace :: back := by
  cases ms <;> simp [inside, content, tail]

/-- The object with one more member. White space around it is dropped. -/
def extended (d : ObjectText) (name : Bytes) (hraw : IsValue raw) : ObjectText where
  front := []
  inner := []
  members :=
    match d.members with
    | [] => [.plain true d.inner name d.inner_blank hraw]
    | m :: ms => (m :: ms) ++ [.plain true [] name Blank.nil hraw]
  back := []
  front_blank := Blank.nil
  inner_blank := Blank.nil
  back_blank := Blank.nil

theorem beforeLastBrace_append {s t : Bytes} (ht : Blank t) :
    beforeLastBrace (s ++ Bytes.closeBrace :: t) = some s := by
  have hback : ∀ b ∈ t, (b != Bytes.closeBrace) = true := ht.forall_mem rfl
  have hpass : ∀ b ∈ t.reverse, (b != Bytes.closeBrace) = true :=
    fun b hb => hback b (List.mem_reverse.mp hb)
  rw [beforeLastBrace, List.reverse_append, List.reverse_cons, List.append_assoc,
    List.dropWhile_append_of_pos hpass]
  simp

theorem dropWhile_blank_le {ws t : Bytes} {b : UInt8} (hws : Blank ws) (hb : ¬ b ≤ 0x20) :
    (ws ++ b :: t).dropWhile (· ≤ 0x20) = b :: t := by
  exact dropWhile_append_cons (hws.forall_mem rfl) (by simpa using hb)

theorem needsComma_inside (hinner : Blank inner) (ms : List MemberText) :
    needsComma (inside inner ms back) = !ms.isEmpty := by
  cases ms with
  | nil =>
    rw [inside, needsComma, dropWhile_blank_le hinner (by decide)]
    rfl
  | cons m ms =>
    rw [inside, MemberText.text, List.append_assoc, List.cons_append, needsComma,
      dropWhile_blank_le m.before_blank (by decide)]
    rfl

theorem text_extended (d : ObjectText) (name : Bytes) (hraw : IsValue raw) :
    (d.extended name hraw).text = Bytes.openBrace :: (content d.inner d.members ++
      ((if d.members.isEmpty then [] else [Bytes.comma]) ++ memberText name raw ++
        [Bytes.closeBrace])) := by
  cases hms : d.members with
  | nil => simp [extended, hms, text, inside, content, MemberText.text_plain, memberText]
  | cons m ms =>
    simp [extended, hms, text, inside, content, tail, MemberText.text_plain, memberText]

theorem addMember_inside (d : ObjectText) (hraw : IsValue raw) :
    addMember name raw (inside d.inner d.members d.back) = (d.extended name hraw).text := by
  rw [addMember, needsComma_inside d.inner_blank, inside_eq, beforeLastBrace_append d.back_blank,
    text_extended]
  cases d.members <;> simp

theorem setMember_extend (d : ObjectText) (hraw : IsValue raw)
    (h : (readings d.members d.back).find? (·.name == name) = none) :
    setMember name raw d.text = .ok (d.extended name hraw).text := by
  rw [setMember, members_text, h]
  simp only [text, dropWhile_blank_le d.front_blank (by decide : ¬ Bytes.openBrace ≤ 0x20)]
  exact congrArg Except.ok (addMember_inside d hraw)

theorem forall_name_ne {ms : List MemberText}
    (h : (readings ms back).find? (·.name == name) = none) : ∀ m ∈ ms, m.name ≠ name := by
  induction ms with
  | nil => simp
  | cons m ms ih =>
    rw [readings, List.find?_cons] at h
    split at h
    · cases h
    · next hm => exact List.forall_mem_cons.mpr ⟨by simpa using hm, ih h⟩

/-! ## Setting a member twice -/

theorem find?_readings_append {l r : List MemberText} {m : MemberText}
    (hl : ∀ x ∈ l, x.name ≠ name) (hm : m.name = name) :
    (readings (l ++ m :: r) back).find? (·.name == name) =
      some ⟨m.name, Glimpse.ofText m.value, m.after ++ tail r back⟩ := by
  induction l with
  | nil => simp [readings, hm]
  | cons x l ih =>
    obtain ⟨hx, hl⟩ := List.forall_mem_cons.mp hl
    rw [List.cons_append, readings, List.find?_cons_of_neg (by simpa using hx), ih hl]

theorem setMember_split (d : ObjectText) {l r : List MemberText} {m : MemberText}
    (hraw : IsValue raw) (hms : d.members = l ++ m :: r) (hl : ∀ x ∈ l, x.name ≠ name)
    (hm : m.name = name) : setMember name raw d.text = .ok (d.exchanged l m r hraw).text :=
  d.setMember_exchange hraw hms (by rw [hms, find?_readings_append hl hm])

/-- An added member is found again, and its value is then exchanged in place. -/
theorem setMember_extended (d : ObjectText) {raw' : Bytes} (hraw : IsValue raw)
    (hraw' : IsValue raw') (hname : nameOf (writeString true name) = name)
    (hne : ∀ m ∈ d.members, m.name ≠ name) :
    setMember name raw' (d.extended name hraw).text = .ok (d.extended name hraw').text := by
  have hplain : ∀ {before : Bytes} (hbefore : Blank before),
      (MemberText.plain true before name hbefore hraw).name = name := by
    intro before hbefore
    rw [← MemberText.nameOf_rawName]
    exact hname
  cases hms : d.members with
  | nil =>
    have hext : (d.extended name hraw).members =
        [] ++ MemberText.plain true d.inner name d.inner_blank hraw :: [] := by
      simp [extended, hms]
    rw [setMember_split _ hraw' hext (by simp) (hplain _)]
    simp [exchanged, extended, hms, withValue, MemberText.plain]
  | cons m ms =>
    have hext : (d.extended name hraw).members =
        (m :: ms) ++ MemberText.plain true [] name Blank.nil hraw :: [] := by
      simp [extended, hms]
    rw [setMember_split _ hraw' hext (hms ▸ hne) (hplain _)]
    simp [exchanged, extended, hms, withValue, MemberText.plain]

/-- Of two values set under one name the second stays, and nothing else tells
that there was a first. -/
theorem setMember_setMember (d : ObjectText) {raw' : Bytes} (hraw : IsValue raw)
    (hraw' : IsValue raw') (hname : nameOf (writeString true name) = name) :
    ∃ out out', setMember name raw d.text = .ok out ∧ setMember name raw' d.text = .ok out' ∧
      setMember name raw' out = .ok out' := by
  cases hfind : (readings d.members d.back).find? (·.name == name) with
  | some found =>
    obtain ⟨l, m, r, hms, hl, hm, rfl⟩ := find?_readings hfind
    have hagain := setMember_split (m := withValue m hraw) (d.exchanged l m r hraw) hraw' rfl hl hm
    exact ⟨_, _, setMember_split d hraw hms hl hm, setMember_split d hraw' hms hl hm, hagain⟩
  | none =>
    exact ⟨_, _, setMember_extend d hraw hfind, setMember_extend d hraw' hfind,
      setMember_extended d hraw hraw' hname (forall_name_ne hfind)⟩

theorem setMember_text (d : ObjectText) (name : Bytes) (hraw : IsValue raw) :
    ∃ d' : ObjectText, setMember name raw d.text = .ok d'.text ∧
      d'.view = setFirst name raw d.view := by
  have hkeep : ∀ ms : List MemberText, (∀ m ∈ ms, m.name ≠ name) →
      ∀ m ∈ ms.map MemberText.view, nameOf m.1 ≠ name := by
    intro ms hms m hm
    obtain ⟨x, hx, rfl⟩ := List.mem_map.mp hm
    exact x.nameOf_rawName.trans_ne (hms x hx)
  cases hfind : (readings d.members d.back).find? (·.name == name) with
  | some found =>
    obtain ⟨l, m, r, hms, hl, hm, rfl⟩ := find?_readings hfind
    refine ⟨d.exchanged l m r hraw, setMember_exchange d hraw hms hfind, ?_⟩
    have hname : nameOf m.rawName = name := m.nameOf_rawName.trans hm
    rw [view, view, hms, List.map_append, setFirst_append (hkeep l hl)]
    simp [exchanged, MemberText.view, setFirst, hname]
    exact ⟨rfl, rfl⟩
  | none =>
    have hne := forall_name_ne hfind
    refine ⟨d.extended name hraw, setMember_extend d hraw hfind, ?_⟩
    have hset : setFirst name raw (d.members.map MemberText.view ++ []) = _ :=
      setFirst_append (hkeep d.members hne)
    rw [List.append_nil] at hset
    rw [view, view, hset]
    cases hms : d.members with
    | nil => simp [extended, hms, MemberText.view_plain, setFirst]
    | cons m ms => simp [extended, hms, MemberText.view_plain, setFirst]

end ObjectText

/-! ## Texts that are no object -/

theorem startsContainer_eq_false {b : UInt8} (hbrace : b ≠ Bytes.openBrace)
    (hbracket : b ≠ Bytes.openBracket) : Glimpse.startsContainer b = false := by
  simp [Glimpse.startsContainer, hbrace, hbracket]

/-- The first bracket in a string, if there is one, is followed by the rest of
the string. -/
theorem StringBody.dropWhile_container {body : Bytes} (h : StringBody body) (t : Bytes) :
    (∃ b body', (body ++ Bytes.quote :: t).dropWhile (fun b => !Glimpse.startsContainer b) =
        b :: (body' ++ Bytes.quote :: t) ∧ StringBody body') ∨
      (body ++ Bytes.quote :: t).dropWhile (fun b => !Glimpse.startsContainer b) =
        t.dropWhile fun b => !Glimpse.startsContainer b := by
  have hpass : ∀ (b : UInt8) (s : Bytes), Glimpse.startsContainer b = false →
      (b :: s).dropWhile (fun b => !Glimpse.startsContainer b) =
        s.dropWhile fun b => !Glimpse.startsContainer b :=
    fun b s hb => List.dropWhile_cons_of_pos (by simp [hb])
  induction h with
  | nil => exact .inr (hpass _ _ rfl)
  | @plain b s hquote hslash hspace hs ih =>
    by_cases hb : Glimpse.startsContainer b = true
    · refine .inl ⟨b, s, ?_, hs⟩
      rw [List.cons_append, List.dropWhile_cons_of_neg (by simp [hb])]
    · rwa [List.cons_append, hpass _ _ (by simpa using hb)]
  | @short e s he hs ih =>
    have hb : Glimpse.startsContainer e = false := by
      apply startsContainer_eq_false <;> rintro rfl <;> exact absurd he (by decide)
    rwa [List.cons_append, List.cons_append, hpass _ _ rfl, hpass _ _ hb]
  | @unicode h₁ h₂ h₃ h₄ s hex hs ih =>
    have hhex : ∀ h ∈ [h₁, h₂, h₃, h₄], Glimpse.startsContainer h = false := by
      intro h hh
      have hsome := hex h hh
      apply startsContainer_eq_false <;> rintro rfl <;> exact absurd hsome (by decide)
    simp only [List.forall_mem_cons] at hhex
    obtain ⟨hhex₁, hhex₂, hhex₃, hhex₄, -⟩ := hhex
    simp only [List.cons_append]
    rwa [hpass _ _ rfl, hpass _ _ rfl, hpass _ _ hhex₁, hpass _ _ hhex₂, hpass _ _ hhex₃,
      hpass _ _ hhex₄]

/-- A name that is looked for inside a string starts at an escaped quote or at
the end of the string. -/
theorem StringBody.dropWhile_name {body : Bytes} (h : StringBody body) (t : Bytes) :
    (∃ rest, (body ++ Bytes.quote :: t).dropWhile
        (fun b => b != Bytes.quote && b != Bytes.closeBrace) = Bytes.closeBrace :: rest) ∨
      (∃ body', (body ++ Bytes.quote :: t).dropWhile
        (fun b => b != Bytes.quote && b != Bytes.closeBrace) =
          Bytes.quote :: (body' ++ Bytes.quote :: t) ∧ StringBody body') ∨
      (body ++ Bytes.quote :: t).dropWhile
        (fun b => b != Bytes.quote && b != Bytes.closeBrace) = Bytes.quote :: t := by
  have hpass : ∀ (b : UInt8) (s : Bytes), b ≠ Bytes.quote → b ≠ Bytes.closeBrace →
      (b :: s).dropWhile (fun b => b != Bytes.quote && b != Bytes.closeBrace) =
        s.dropWhile fun b => b != Bytes.quote && b != Bytes.closeBrace :=
    fun b s hquote hclose => List.dropWhile_cons_of_pos (by simp [hquote, hclose])
  induction h with
  | nil => exact .inr (.inr rfl)
  | @plain b s hquote hslash hspace hs ih =>
    by_cases hb : b = Bytes.closeBrace
    · subst hb
      exact .inl ⟨_, rfl⟩
    · rwa [List.cons_append, hpass _ _ hquote hb]
  | @short e s he hs ih =>
    rw [List.cons_append, List.cons_append, hpass _ _ (by decide) (by decide)]
    by_cases hquote : e = Bytes.quote
    · subst hquote
      exact .inr (.inl ⟨s, rfl, hs⟩)
    · have hclose : e ≠ Bytes.closeBrace := by
        rintro rfl
        exact absurd he (by decide)
      rwa [hpass _ _ hquote hclose]
  | @unicode h₁ h₂ h₃ h₄ s hex hs ih =>
    have hhex : ∀ h ∈ [h₁, h₂, h₃, h₄], h ≠ Bytes.quote ∧ h ≠ Bytes.closeBrace := by
      intro h hh
      have hsome := hex h hh
      constructor <;> rintro rfl <;> exact absurd hsome (by decide)
    simp only [List.forall_mem_cons] at hhex
    obtain ⟨⟨hq₁, hc₁⟩, ⟨hq₂, hc₂⟩, ⟨hq₃, hc₃⟩, ⟨hq₄, hc₄⟩, -⟩ := hhex
    simp only [List.cons_append]
    rwa [hpass _ _ (by decide) (by decide), hpass _ _ (by decide) (by decide), hpass _ _ hq₁ hc₁,
      hpass _ _ hq₂ hc₂, hpass _ _ hq₃ hc₃, hpass _ _ hq₄ hc₄]

namespace Glimpse

variable {t : Bytes}

theorem nextValue?_blank (ht : Blank t) : nextValue? t = none := by
  rw [← List.append_nil t, nextValue?_skip fun b hb => .inl (ht b hb)]
  rfl

theorem takeString?_blank (ht : Blank t) (acc : Bytes) : takeString? false acc t = none := by
  induction t generalizing acc with
  | nil => rfl
  | cons b t ih =>
    obtain ⟨hb, ht⟩ := List.forall_mem_cons.mp ht
    rw [takeString?_plain (by rintro rfl; exact absurd hb (by decide))
      (by rintro rfl; exact absurd hb (by decide))]
    exact ih ht _

/-- Inside a string the reader finds no member: the text ends before a value
could follow a name. -/
theorem membersOnto_body {body : Bytes} (h : StringBody body) (ht : Blank t) (fuel : Nat) :
    membersOnto fuel [] (body ++ Bytes.quote :: t) = [] := by
  cases fuel with
  | zero => rfl
  | succ fuel =>
    rcases h.dropWhile_name t with ⟨rest, hdrop⟩ | ⟨body', hdrop, hbody'⟩ | hdrop
    · exact membersOnto_close hdrop
    · have hname : takeString? false [] (body' ++ Bytes.quote :: t) = some (body', t) :=
        takeString?_body hbody'
      rw [membersOnto_quote hdrop, hname]
      simp only [nextValue?_blank ht]
    · rw [membersOnto_quote hdrop, takeString?_blank ht]

theorem members_of_dropWhile {s rest : Bytes}
    (hs : (s.dropWhile fun b => !startsContainer b) = rest)
    (h : ∀ fuel body, rest = Bytes.openBrace :: body → membersOnto fuel [] body = []) :
    members s = [] := by
  unfold members
  rw [hs]
  split
  · next body => rw [h _ body rfl, List.reverse_nil]
  · rfl

end Glimpse

/-- A valid text that is no object has no members. -/
theorem members_eq_nil {s : Bytes} (hs : isValid s = true)
    (hopen : (skipBlank s).head? ≠ some Bytes.openBrace) : Glimpse.members s = [] := by
  obtain ⟨ws, v, ws', rfl, hws, hv, hws'⟩ := exists_isValue hs
  have hpass : ∀ t : Bytes, Blank t → ∀ b ∈ t, (!Glimpse.startsContainer b) = true :=
    fun t ht => ht.forall_mem rfl
  have hnone : (∀ b ∈ v, Glimpse.startsContainer b = false) →
      Glimpse.members (ws ++ (v ++ ws')) = [] := by
    intro hv
    refine Glimpse.members_of_dropWhile (List.dropWhile_eq_nil_iff.mpr ?_) (by simp)
    intro b hb
    rcases List.mem_append.mp hb with hb | hb
    · exact hpass ws hws b hb
    rcases List.mem_append.mp hb with hb | hb
    · simp [hv b hb]
    · exact hpass ws' hws' b hb
  cases hv.text with
  | @string body h =>
    have hskip : (ws ++ (Bytes.quote :: (body ++ [Bytes.quote]) ++ ws')).dropWhile
        (fun b => !Glimpse.startsContainer b) =
          (body ++ Bytes.quote :: ws').dropWhile fun b => !Glimpse.startsContainer b := by
      rw [List.dropWhile_append_of_pos (hpass ws hws), List.cons_append,
        List.dropWhile_cons_of_pos rfl, List.append_assoc, List.singleton_append]
    rcases h.dropWhile_container ws' with ⟨b, body', hdrop, hbody'⟩ | hdrop
    · refine Glimpse.members_of_dropWhile (hskip.trans hdrop) ?_
      rintro fuel t ⟨⟩
      exact Glimpse.membersOnto_body hbody' hws' fuel
    · have hend := List.dropWhile_eq_nil_iff.mpr (hpass ws' hws')
      exact Glimpse.members_of_dropWhile (hskip.trans (hdrop.trans hend)) (by simp)
  | @container b s hb h =>
    have hdrop : (ws ++ (b :: s ++ ws')).dropWhile (fun b => !Glimpse.startsContainer b) =
        b :: (s ++ ws') := by
      rw [List.dropWhile_append_of_pos (hpass ws hws), List.cons_append,
        List.dropWhile_cons_of_neg (by simp [hb])]
    refine Glimpse.members_of_dropWhile hdrop ?_
    rintro fuel t ⟨⟩
    rw [List.cons_append, skipBlank, dropWhile_append_cons hws rfl] at hopen
    exact absurd rfl hopen
  | @number b s hb h =>
    refine hnone (List.forall_mem_cons.mpr ⟨by grind [Bytes.isDigit, Glimpse.startsContainer], ?_⟩)
    intro c hc
    have := isNeutral_of_isNumeral (h c hc)
    grind [isNeutral, Glimpse.startsContainer]
  | word h =>
    have hwords : words.all (fun w => w.all fun b => !Glimpse.startsContainer b) = true := by decide
    have hword := List.all_eq_true.mp (List.all_eq_true.mp hwords v h)
    exact hnone fun b hb => by simpa using hword b hb

/-- Setting a member in a valid text that is no object either fails, for an
array, or gives an object of that member. -/
theorem setMember_eq_single {s out : Bytes} (name raw : Bytes) (hs : isValid s = true)
    (hopen : (skipBlank s).head? ≠ some Bytes.openBrace)
    (h : setMember name raw s = .ok out) : out = singleMember name raw := by
  rw [setMember, members_eq_nil hs hopen, List.find?_nil] at h
  obtain ⟨ws, v, ws', rfl, hws, hv, hws'⟩ := exists_isValue hs
  obtain ⟨b, t, rfl, hspace, hblank⟩ := hv.text.exists_cons
  rw [List.cons_append, skipBlank, dropWhile_append_cons hws hblank] at hopen
  simp only [List.cons_append, ObjectText.dropWhile_blank_le hws hspace] at h
  split at h
  · next body heq =>
    cases heq
    exact absurd rfl hopen
  · cases h
  · exact (Except.ok.inj h).symm

/-! ## Setting a member twice in any text -/

/-- Whether a member can be set does not depend on its value. -/
theorem exists_setMember {name raw s out : Bytes} (raw' : Bytes)
    (h : setMember name raw s = .ok out) : ∃ out', setMember name raw' s = .ok out' := by
  unfold setMember at h ⊢
  cases hfind : (Glimpse.members s).find? (·.name == name) with
  | some found => exact ⟨_, rfl⟩
  | none =>
    rw [hfind] at h
    simp only at h ⊢
    split
    · exact ⟨_, rfl⟩
    · next heq =>
      rw [heq] at h
      cases h
    · exact ⟨_, rfl⟩

theorem setMember_singleMember {name raw raw' : Bytes} (hraw : IsValue raw) (hraw' : IsValue raw')
    (hname : nameOf (writeString true name) = name) :
    setMember name raw' (singleMember name raw) = .ok (singleMember name raw') := by
  let empty : ObjectText := ⟨[], [], [], [], Blank.nil, Blank.nil, Blank.nil⟩
  have htext : ∀ {raw : Bytes} (hraw : IsValue raw),
      (empty.extended name hraw).text = singleMember name raw := by
    intro raw hraw
    simp [empty, ObjectText.extended, ObjectText.text, ObjectText.inside, MemberText.text_plain,
      singleMember, memberText]
  have hset := empty.setMember_extended hraw hraw' hname (by simp [empty])
  rwa [htext, htext] at hset

/-- A text in which a member was set keeps no trace of its value when the
member is set again. -/
theorem setMember_again {name raw raw' s out : Bytes} (hs : isValid s = true) (hraw : IsValue raw)
    (hraw' : IsValue raw') (hname : nameOf (writeString true name) = name)
    (h : setMember name raw s = .ok out) :
    ∃ out', setMember name raw' s = .ok out' ∧ setMember name raw' out = .ok out' := by
  by_cases hopen : (skipBlank s).head? = some Bytes.openBrace
  · obtain ⟨d, rfl⟩ := exists_objectText hs hopen
    obtain ⟨out₁, out', hset, hset', hagain⟩ := d.setMember_setMember hraw hraw' hname
    obtain rfl : out₁ = out := Except.ok.inj (hset.symm.trans h)
    exact ⟨out', hset', hagain⟩
  · obtain ⟨out', hset'⟩ := exists_setMember raw' h
    have hout := setMember_eq_single name raw hs hopen h
    have hout' := setMember_eq_single name raw' hs hopen hset'
    refine ⟨out', hset', ?_⟩
    rw [hout, hout', setMember_singleMember hraw hraw' hname]

end Json

end ScanTriage
