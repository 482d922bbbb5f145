import ScanTriage.Proofs.Json.Values

/-!
# Objects as written

An `ObjectText` is the text of an object taken apart: its members with their
raw names and values, and all the white space. `ObjectText.text` puts it
together again. Every valid text that starts with a brace is such a text
(`exists_objectText`), every such text is valid (`ObjectText.isValid_text`), and
two of them with the same text have the same members (`ObjectText.view_eq`). The
tolerant reader finds exactly these members (`ObjectText.members_text`).
-/

namespace ScanTriage

namespace Json

/-- A member of an object as written. -/
structure MemberText where
  before : Bytes
  /-- The name between its quotes. -/
  body : Bytes
  beforeColon : Bytes
  afterColon : Bytes
  value : Bytes
  after : Bytes
  before_blank : Blank before
  isBody : StringBody body
  beforeColon_blank : Blank beforeColon
  afterColon_blank : Blank afterColon
  isValue : IsValue value
  after_blank : Blank after

namespace MemberText

def text (m : MemberText) : Bytes :=
  m.before ++ Bytes.quote :: (m.body ++ Bytes.quote :: (m.beforeColon ++
    Bytes.colon :: (m.afterColon ++ (m.value ++ m.after))))

def rawName (m : MemberText) : Bytes := Bytes.quote :: (m.body ++ [Bytes.quote])

def name (m : MemberText) : Bytes := Glimpse.unescape m.body

def view (m : MemberText) : Bytes × Bytes := (m.rawName, m.value)

end MemberText

def nameOf (rawName : Bytes) : Bytes := (Glimpse.ofText rawName).text

theorem nameOf_quoted {body : Bytes} (h : StringBody body) :
    nameOf (Bytes.quote :: (body ++ [Bytes.quote])) = Glimpse.unescape body := by
  simp [nameOf, Glimpse.ofText_string h, Glimpse.ofBody, Glimpse.text]

theorem MemberText.nameOf_rawName (m : MemberText) : nameOf m.rawName = m.name :=
  nameOf_quoted m.isBody

def rawValue? (name : Bytes) (members : List (Bytes × Bytes)) : Option Bytes :=
  (members.find? fun m => nameOf m.1 == name).map (·.2)

/-- An object as written; `inner` is what stands between the braces of an
object without members. -/
structure ObjectText where
  front : Bytes
  inner : Bytes
  members : List MemberText
  back : Bytes
  front_blank : Blank front
  inner_blank : Blank inner
  back_blank : Blank back

namespace ObjectText

/-- What follows a member: the further ones and the end of the object. -/
def tail (members : List MemberText) (back : Bytes) : Bytes :=
  members.flatMap (fun m => Bytes.comma :: m.text) ++ Bytes.closeBrace :: back

/-- What follows the opening brace. -/
def inside (inner : Bytes) (members : List MemberText) (back : Bytes) : Bytes :=
  match members with
  | [] => inner ++ Bytes.closeBrace :: back
  | m :: members => m.text ++ tail members back

def text (d : ObjectText) : Bytes :=
  d.front ++ Bytes.openBrace :: inside d.inner d.members d.back

def view (d : ObjectText) : List (Bytes × Bytes) := d.members.map MemberText.view

@[simp] theorem tail_nil (back : Bytes) : tail [] back = Bytes.closeBrace :: back := rfl

@[simp] theorem tail_cons (m : MemberText) (ms : List MemberText) (back : Bytes) :
    tail (m :: ms) back = Bytes.comma :: (m.text ++ tail ms back) := by
  simp [tail]

theorem follows_tail (ms : List MemberText) (back : Bytes) : Follows (tail ms back) := by
  cases ms with
  | nil => exact ⟨_, _, rfl, rfl⟩
  | cons m ms => exact ⟨_, _, tail_cons m ms back, rfl⟩

/-! ## Object texts are valid -/

theorem run?_member {e : Expecting} (he : e = .firstName ∨ e = .name) (m : MemberText)
    {o : List Container} {t : Bytes} (ht : Follows t) :
    ScanState.run? ⟨e, o⟩ (m.text ++ t) = ScanState.run? ⟨.next, o⟩ t := by
  have hskips : e.skipsBlank = true := by rcases he with rfl | rfl <;> rfl
  have hquote : ScanState.step? ⟨e, o⟩ Bytes.quote = some ⟨.text true, o⟩ := by
    rcases he with rfl | rfl <;> rfl
  have hclose : ScanState.step? ⟨.text true, o⟩ Bytes.quote = some ⟨.colon, o⟩ := rfl
  have hcolon : ScanState.step? ⟨.colon, o⟩ Bytes.colon = some ⟨.value, o⟩ := rfl
  simp only [MemberText.text, List.append_assoc, List.cons_append]
  rw [ScanState.run?_blank hskips m.before_blank, ScanState.run?_cons_of_step hquote,
    ScanState.run?_body m.isBody, ScanState.run?_cons_of_step hclose,
    ScanState.run?_blank rfl m.beforeColon_blank, ScanState.run?_cons_of_step hcolon,
    ScanState.run?_blank rfl m.afterColon_blank,
    ScanState.run?_value m.isValue.valid (ht.append_left m.after_blank),
    ScanState.run?_blank rfl m.after_blank]

theorem run?_tail (ms : List MemberText) {back : Bytes} (hback : Blank back)
    {o : List Container} :
    ScanState.run? ⟨.next, .object :: o⟩ (tail ms back) = some ⟨.next, o⟩ := by
  induction ms with
  | nil =>
    have hclose : ScanState.step? ⟨.next, .object :: o⟩ Bytes.closeBrace = some ⟨.next, o⟩ := rfl
    rw [tail_nil, ScanState.run?_cons_of_step hclose, ScanState.run?_blank_end rfl hback]
  | cons m ms ih =>
    have hcomma : ScanState.step? ⟨.next, .object :: o⟩ Bytes.comma =
        some ⟨.name, .object :: o⟩ := rfl
    rw [tail_cons, ScanState.run?_cons_of_step hcomma,
      run?_member (.inr rfl) m (follows_tail ms back), ih]

theorem run?_inside {inner back : Bytes} (ms : List MemberText) (hinner : Blank inner)
    (hback : Blank back) {o : List Container} :
    ScanState.run? ⟨.firstName, .object :: o⟩ (inside inner ms back) = some ⟨.next, o⟩ := by
  cases ms with
  | nil =>
    have hclose : ScanState.step? ⟨.firstName, .object :: o⟩ Bytes.closeBrace =
        some ⟨.next, o⟩ := rfl
    rw [inside, ScanState.run?_blank rfl hinner, ScanState.run?_cons_of_step hclose,
      ScanState.run?_blank_end rfl hback]
  | cons m ms =>
    rw [inside, run?_member (.inl rfl) m (follows_tail ms back), run?_tail ms hback]

theorem isValid_text (d : ObjectText) : isValid d.text = true := by
  refine isValid_iff.mpr ⟨⟨.next, []⟩, ?_, rfl⟩
  have hopen : ScanState.step? ⟨.value, []⟩ Bytes.openBrace = some ⟨.firstName, [.object]⟩ := rfl
  rw [text, ScanState.start, ScanState.run?_blank rfl d.front_blank,
    ScanState.run?_cons_of_step hopen]
  exact run?_inside d.members d.inner_blank d.back_blank

/-! ## Every valid object has an object text -/

variable {fin : ScanState} {t : Bytes}

/-- A run that expects a name splits off a member. -/
theorem run?_name_split (h : ScanState.run? ⟨.name, [.object]⟩ t = some fin)
    (hfin : fin.isComplete = true) :
    ∃ (m : MemberText) (rest : Bytes), m.after = [] ∧ t = m.text ++ rest ∧
      ScanState.run? ⟨.next, [.object]⟩ rest = some fin := by
  obtain ⟨before, b, t, st, rfl, hbefore, hb, hstep, hrun⟩ :=
    ScanState.exists_token rfl h hfin rfl
  simp only [ScanState.step?, hb, Bool.false_eq_true, if_false] at hstep
  split at hstep
  · next hquote =>
    obtain rfl := eq_of_beq hquote
    obtain rfl := Option.some.inj hstep
    obtain ⟨body, t, rfl, hbody, hrun⟩ := ScanState.run?_text_split hrun hfin
    obtain ⟨beforeColon, b, t, st, rfl, hbeforeColon, hb, hstep, hrun⟩ :=
      ScanState.exists_token rfl hrun hfin rfl
    simp only [if_true, ScanState.step?, hb, Bool.false_eq_true, if_false] at hstep
    split at hstep
    · next hcolon =>
      obtain rfl := eq_of_beq hcolon
      obtain rfl := Option.some.inj hstep
      obtain ⟨afterColon, v, rest, rfl, hafterColon, hv, -, hrest⟩ :=
        ScanState.run?_value_split (by simp) hrun hfin
      exact ⟨⟨before, body, beforeColon, afterColon, v, [], hbefore, hbody, hbeforeColon,
        hafterColon, hv, Blank.nil⟩, rest, rfl, by simp [MemberText.text], hrest⟩
    · cases hstep
  · cases hstep

/-- A run after a member splits off the further members. -/
theorem run?_next_split (h : ScanState.run? ⟨.next, [.object]⟩ t = some fin)
    (hfin : fin.isComplete = true) :
    ∃ (ws : Bytes) (ms : List MemberText) (back : Bytes), Blank ws ∧ Blank back ∧
      t = ws ++ tail ms back := by
  induction hn : t.length using Nat.strong_induction_on generalizing t with
  | _ n ih =>
  obtain ⟨ws, b, t, st, rfl, hws, hb, hstep, hrun⟩ := ScanState.exists_token rfl h hfin rfl
  simp only [ScanState.step?, ScanState.afterValue?, hb, Bool.false_eq_true, if_false] at hstep
  split at hstep
  · next hcomma =>
    obtain rfl := eq_of_beq hcomma
    obtain rfl := Option.some.inj hstep
    obtain ⟨m, rest, hafter, rfl, hrest⟩ := run?_name_split hrun hfin
    have hlen : rest.length < n := by
      simp only [List.length_append, List.length_cons] at hn
      omega
    obtain ⟨ws', ms, back, hws', hback, rfl⟩ := ih rest.length hlen hrest rfl
    refine ⟨ws, { m with after := ws', after_blank := hws' } :: ms, back, hws, hback, ?_⟩
    simp [MemberText.text, hafter]
  split at hstep
  · next hclose =>
    obtain rfl := eq_of_beq hclose
    obtain rfl := Option.some.inj hstep
    exact ⟨ws, [], t, hws, (ScanState.blank_of_run_next hrun).1, rfl⟩
  · cases hstep

theorem run?_firstName_split (h : ScanState.run? ⟨.firstName, [.object]⟩ t = some fin)
    (hfin : fin.isComplete = true) :
    ∃ (inner : Bytes) (ms : List MemberText) (back : Bytes), Blank inner ∧ Blank back ∧
      t = inside inner ms back := by
  obtain ⟨ws, b, t, st, rfl, hws, hb, hstep, hrun⟩ := ScanState.exists_token rfl h hfin rfl
  simp only [ScanState.step?, hb, Bool.false_eq_true, if_false] at hstep
  split at hstep
  · next hclose =>
    obtain rfl := eq_of_beq hclose
    obtain rfl := Option.some.inj hstep
    exact ⟨ws, [], t, hws, (ScanState.blank_of_run_next hrun).1, rfl⟩
  split at hstep
  · next hquote =>
    -- From the quote on, a first name is like any other.
    obtain rfl := eq_of_beq hquote
    obtain rfl := Option.some.inj hstep
    have hname : ScanState.step? ⟨.name, [.object]⟩ Bytes.quote = some ⟨.text true, [.object]⟩ :=
      rfl
    rw [← ScanState.run?_cons_of_step hname, ← ScanState.run?_blank (e := .name) rfl hws] at hrun
    obtain ⟨m, rest, hafter, hm, hrest⟩ := run?_name_split hrun hfin
    obtain ⟨ws', ms, back, hws', hback, rfl⟩ := run?_next_split hrest hfin
    refine ⟨[], { m with after := ws', after_blank := hws' } :: ms, back, Blank.nil, hback, ?_⟩
    rw [hm]
    simp [inside, MemberText.text, hafter]
  · cases hstep

end ObjectText

/-- A valid text whose first byte, after white space, is a brace is the text of
an object. -/
theorem exists_objectText {s : Bytes} (hs : isValid s = true)
    (hopen : (skipBlank s).head? = some Bytes.openBrace) : ∃ d : ObjectText, d.text = s := by
  obtain ⟨fin, hrun, hfin⟩ := isValid_iff.mp hs
  obtain ⟨t, ht⟩ := List.head?_eq_some_iff.mp hopen
  obtain ⟨front, hfront, rfl⟩ : ∃ front, Blank front ∧ s = front ++ Bytes.openBrace :: t :=
    ⟨s.takeWhile isBlank, blank_takeWhile s,
      by rw [← ht, skipBlank, List.takeWhile_append_dropWhile]⟩
  have hstep : ScanState.step? ⟨.value, []⟩ Bytes.openBrace = some ⟨.firstName, [.object]⟩ := rfl
  rw [ScanState.start, ScanState.run?_blank rfl hfront, ScanState.run?_cons_of_step hstep] at hrun
  obtain ⟨inner, members, back, hinner, hback, rfl⟩ := ObjectText.run?_firstName_split hrun hfin
  exact ⟨⟨front, inner, members, back, hfront, hinner, hback⟩, rfl⟩

/-! ## What the tolerant reader finds -/

namespace Glimpse

variable {ws t : Bytes}

theorem takePlain?_blank {b : UInt8} (hb : isBlank b = true) (s : Bytes) :
    takePlain? b s = none := by
  simp only [isBlank_iff, List.mem_cons, List.not_mem_nil, or_false] at hb
  rcases hb with rfl | rfl | rfl | rfl <;> rfl

theorem nextValue?_skip (hws : ∀ b ∈ ws, isBlank b = true ∨ b = Bytes.colon) :
    nextValue? (ws ++ t) = nextValue? t := by
  induction ws with
  | nil => rfl
  | cons b ws ih =>
    have hb : b ≠ Bytes.quote ∧ takePlain? b (ws ++ t) = none := by
      rcases hws b (List.mem_cons_self ..) with hb | rfl
      · exact ⟨by rintro rfl; exact absurd hb (by decide), takePlain?_blank hb _⟩
      · exact ⟨by decide, rfl⟩
    simp only [List.cons_append, nextValue?, hb.2, beq_iff_eq, hb.1, if_false]
    exact ih fun c hc => hws c (List.mem_cons_of_mem b hc)

theorem membersOnto_quote {s rest : Bytes} {fuel : Nat} {acc : List Member}
    (hs : (s.dropWhile fun b => b != Bytes.quote && b != Bytes.closeBrace) = Bytes.quote :: rest) :
    membersOnto (fuel + 1) acc s =
      match takeString? false [] rest with
      | none => acc
      | some (name, rest) =>
        match nextValue? rest with
        | none => acc
        | some (value, rest) => membersOnto fuel (⟨unescape name, value, rest⟩ :: acc) rest := by
  rw [membersOnto, hs]
  rfl

theorem membersOnto_close {s rest : Bytes} {fuel : Nat} {acc : List Member}
    (hs : (s.dropWhile fun b => b != Bytes.quote && b != Bytes.closeBrace) =
      Bytes.closeBrace :: rest) :
    membersOnto fuel acc s = acc := by
  cases fuel with
  | zero => rfl
  | succ fuel =>
    rw [membersOnto, hs]
    rfl

theorem takeString?_member (m : MemberText) :
    takeString? false [] (m.body ++ Bytes.quote :: t) = some (m.body, t) :=
  takeString?_body m.isBody

theorem nextValue?_member (m : MemberText) (ht : Follows t) :
    nextValue? (m.beforeColon ++ Bytes.colon :: (m.afterColon ++ (m.value ++ t))) =
      some (ofText m.value, t) := by
  have hws : ∀ b ∈ m.beforeColon ++ Bytes.colon :: m.afterColon,
      isBlank b = true ∨ b = Bytes.colon := by
    intro b hb
    rcases List.mem_append.mp hb with hb | hb
    · exact .inl (m.beforeColon_blank b hb)
    rcases List.mem_cons.mp hb with rfl | hb
    · exact .inr rfl
    · exact .inl (m.afterColon_blank b hb)
  have hskip := nextValue?_skip (t := m.value ++ t) hws
  rw [nextValue?_value m.isValue.text ht] at hskip
  simpa using hskip

end Glimpse

namespace ObjectText

/-- The members as the tolerant reader gives them. -/
def readings : List MemberText → Bytes → List Glimpse.Member
  | [], _ => []
  | m :: ms, back => ⟨m.name, Glimpse.ofText m.value, m.after ++ tail ms back⟩ :: readings ms back

open Glimpse in
theorem membersOnto_member (m : MemberText) {ws t : Bytes} {fuel : Nat} {acc : List Member}
    (hws : ∀ b ∈ ws, (b != Bytes.quote && b != Bytes.closeBrace) = true) (ht : Follows t) :
    membersOnto (fuel + 1) acc (ws ++ (m.text ++ t)) =
      membersOnto fuel (⟨m.name, ofText m.value, m.after ++ t⟩ :: acc) (m.after ++ t) := by
  have hpass : ∀ b ∈ ws ++ m.before, (b != Bytes.quote && b != Bytes.closeBrace) = true :=
    List.forall_mem_append.mpr ⟨hws, m.before_blank.forall_mem rfl⟩
  simp only [MemberText.text, List.append_assoc, List.cons_append]
  rw [← List.append_assoc, membersOnto_quote (dropWhile_append_cons hpass rfl),
    takeString?_member m]
  simp only [nextValue?_member m (ht.append_left m.after_blank), MemberText.name]

open Glimpse in
theorem membersOnto_tail (ms : List MemberText) {ws back : Bytes} {fuel : Nat}
    {acc : List Member} (hws : Blank ws) (hfuel : ms.length ≤ fuel) :
    membersOnto fuel acc (ws ++ tail ms back) = (readings ms back).reverse ++ acc := by
  induction ms generalizing ws fuel acc with
  | nil =>
    exact membersOnto_close (dropWhile_append_cons (hws.forall_mem rfl) rfl)
  | cons m ms ih =>
    obtain ⟨fuel, rfl⟩ : ∃ n, fuel = n + 1 := ⟨fuel - 1, by simp at hfuel; omega⟩
    have hws' : ∀ b ∈ ws ++ [Bytes.comma], (b != Bytes.quote && b != Bytes.closeBrace) = true :=
      List.forall_mem_append.mpr ⟨hws.forall_mem rfl, List.forall_mem_singleton.mpr rfl⟩
    rw [tail_cons, ← List.singleton_append, ← List.append_assoc,
      membersOnto_member m hws' (follows_tail ms back), ih m.after_blank (by simpa using hfuel)]
    simp [readings]

theorem length_le_inside (inner : Bytes) (ms : List MemberText) (back : Bytes) :
    ms.length ≤ (inside inner ms back).length := by
  have htail : ∀ ms, ms.length ≤ (tail ms back).length := by
    intro ms
    induction ms with
    | nil => simp
    | cons m ms ih =>
      simp only [tail_cons, List.length_cons, List.length_append]
      omega
  cases ms with
  | nil => simp
  | cons m ms =>
    have hm : 0 < m.text.length := by
      simp only [MemberText.text, List.length_append, List.length_cons]
      omega
    have hms := htail ms
    simp only [inside, List.length_cons, List.length_append]
    omega

/-- The tolerant reader finds the members of an object. -/
theorem members_text (d : ObjectText) : Glimpse.members d.text = readings d.members d.back := by
  have hpass : ∀ b ∈ d.front, (!Glimpse.startsContainer b) = true :=
    d.front_blank.forall_mem rfl
  have hinside : ∀ fuel, d.members.length ≤ fuel →
      Glimpse.membersOnto fuel [] (inside d.inner d.members d.back) =
        (readings d.members d.back).reverse := by
    intro fuel hfuel
    cases hms : d.members with
    | nil => exact (membersOnto_tail [] d.inner_blank (Nat.zero_le fuel)).trans (List.append_nil _)
    | cons m ms =>
      rw [hms] at hfuel
      obtain ⟨fuel, rfl⟩ : ∃ n, fuel = n + 1 := ⟨fuel - 1, by simp at hfuel; omega⟩
      have hmember : Glimpse.membersOnto (fuel + 1) [] ([] ++ (m.text ++ tail ms d.back)) = _ :=
        membersOnto_member m (by simp) (follows_tail ms d.back)
      rw [List.nil_append] at hmember
      rw [inside, hmember, membersOnto_tail ms m.after_blank (by simpa using hfuel)]
      simp [readings]
  rw [Glimpse.members, text, dropWhile_append_cons hpass rfl]
  change (Glimpse.membersOnto (inside d.inner d.members d.back).length []
    (inside d.inner d.members d.back)).reverse = _
  rw [hinside _ (length_le_inside ..), List.reverse_reverse]

theorem find?_readings_value (name : Bytes) (ms : List MemberText) (back : Bytes) :
    ((readings ms back).find? (·.name == name)).map (·.value) =
      (rawValue? name (ms.map MemberText.view)).map Glimpse.ofText := by
  induction ms with
  | nil => rfl
  | cons m ms ih =>
    by_cases hm : m.name = name
    · simp [readings, rawValue?, MemberText.view, m.nameOf_rawName, hm]
    · simpa [readings, rawValue?, MemberText.view, m.nameOf_rawName, hm] using ih

theorem find_text (name : Bytes) (d : ObjectText) :
    Glimpse.find name d.text = (rawValue? name d.view).elim Glimpse.missing Glimpse.ofText := by
  have hvalue := find?_readings_value name d.members d.back
  rw [Glimpse.find, members_text, Glimpse.pick, view]
  cases hread : (readings d.members d.back).find? (·.name == name) <;>
    cases hraw : rawValue? name (d.members.map MemberText.view) <;> simp_all

/-! ## The members of a text are its own -/

theorem blank_append_inj {ws ws' t t' : Bytes} {b b' : UInt8} (hws : Blank ws) (hws' : Blank ws')
    (hb : isBlank b = false) (hb' : isBlank b' = false) (h : ws ++ b :: t = ws' ++ b' :: t') :
    b = b' ∧ t = t' := by
  have hdrop := congrArg (List.dropWhile isBlank) h
  rw [dropWhile_append_cons hws hb, dropWhile_append_cons hws' hb'] at hdrop
  exact List.cons.inj hdrop

theorem member_inj {m m' : MemberText} {t t' : Bytes} (ht : Follows t) (ht' : Follows t')
    (h : m.text ++ t = m'.text ++ t') : m.view = m'.view ∧ m.after ++ t = m'.after ++ t' := by
  simp only [MemberText.text, List.append_assoc, List.cons_append] at h
  obtain ⟨-, h⟩ := blank_append_inj m.before_blank m'.before_blank rfl rfl h
  -- The reader splits the two texts, which are the same one, at the same places.
  have hbody := congrArg (Glimpse.takeString? false []) h
  rw [Glimpse.takeString?_member, Glimpse.takeString?_member] at hbody
  obtain ⟨hbody, h⟩ := Prod.mk.inj (Option.some.inj hbody)
  have hvalue := congrArg Glimpse.nextValue? h
  rw [Glimpse.nextValue?_member m (ht.append_left m.after_blank),
    Glimpse.nextValue?_member m' (ht'.append_left m'.after_blank)] at hvalue
  obtain ⟨hvalue, h⟩ := Prod.mk.inj (Option.some.inj hvalue)
  have hraw := congrArg Glimpse.raw hvalue
  rw [Glimpse.ofText_raw m.isValue.text, Glimpse.ofText_raw m'.isValue.text] at hraw
  exact ⟨by simp [MemberText.view, MemberText.rawName, hbody, hraw], h⟩

theorem tail_inj {ms ms' : List MemberText} {ws ws' back back' : Bytes} (hws : Blank ws)
    (hws' : Blank ws') (h : ws ++ tail ms back = ws' ++ tail ms' back') :
    ms.map MemberText.view = ms'.map MemberText.view := by
  induction ms generalizing ms' ws ws' with
  | nil =>
    cases ms' with
    | nil => rfl
    | cons m' ms' =>
      rw [tail_nil, tail_cons] at h
      exact absurd (blank_append_inj hws hws' rfl rfl h).1 (by decide)
  | cons m ms ih =>
    cases ms' with
    | nil =>
      rw [tail_nil, tail_cons] at h
      exact absurd (blank_append_inj hws hws' rfl rfl h).1 (by decide)
    | cons m' ms' =>
      rw [tail_cons, tail_cons] at h
      obtain ⟨-, h⟩ := blank_append_inj hws hws' rfl rfl h
      obtain ⟨hview, h⟩ := member_inj (follows_tail ms back) (follows_tail ms' back') h
      rw [List.map_cons, List.map_cons, hview, ih m.after_blank m'.after_blank h]

theorem inside_inj {inner inner' back back' : Bytes} {ms ms' : List MemberText}
    (hinner : Blank inner) (hinner' : Blank inner')
    (h : inside inner ms back = inside inner' ms' back') :
    ms.map MemberText.view = ms'.map MemberText.view := by
  have hquote : ∀ (m : MemberText) (ms : List MemberText) (inner back back' : Bytes),
      Blank inner → inner ++ Bytes.closeBrace :: back ≠ m.text ++ tail ms back' := by
    intro m ms inner back back' hinner h
    simp only [MemberText.text, List.append_assoc, List.cons_append] at h
    exact absurd (blank_append_inj hinner m.before_blank rfl rfl h).1 (by decide)
  cases ms with
  | nil =>
    cases ms' with
    | nil => rfl
    | cons m' ms' => exact absurd h (hquote m' ms' inner back back' hinner)
  | cons m ms =>
    cases ms' with
    | nil => exact absurd h.symm (hquote m ms inner' back' back hinner')
    | cons m' ms' =>
      obtain ⟨hview, h⟩ := member_inj (follows_tail ms back) (follows_tail ms' back') h
      rw [List.map_cons, List.map_cons, hview, tail_inj m.after_blank m'.after_blank h]

/-- Two object texts of the same text have the same members. -/
theorem view_eq {d d' : ObjectText} (h : d.text = d'.text) : d.view = d'.view := by
  obtain ⟨-, h⟩ := blank_append_inj d.front_blank d'.front_blank rfl rfl h
  exact inside_inj d.inner_blank d'.inner_blank h

end ObjectText

/-- A text is an object with these raw names and values, in this order. -/
def HasMembers (s : Bytes) (members : List (Bytes × Bytes)) : Prop :=
  ∃ d : ObjectText, d.text = s ∧ d.view = members

theorem ObjectText.hasMembers_iff (d : ObjectText) {members : List (Bytes × Bytes)} :
    HasMembers d.text members ↔ members = d.view := by
  constructor
  · rintro ⟨d', htext, rfl⟩
    exact view_eq htext
  · rintro rfl
    exact ⟨d, rfl, rfl⟩

theorem exists_hasMembers {s : Bytes} (hs : IsValue s) (hopen : s.head? = some Bytes.openBrace) :
    ∃ members, HasMembers s members := by
  have hskip : skipBlank s = s := by
    obtain ⟨b, t, rfl, -, hb⟩ := hs.text.exists_cons
    exact List.dropWhile_cons_of_neg (by simp [hb])
  obtain ⟨d, hd⟩ := exists_objectText hs.valid (by rwa [hskip])
  exact ⟨d.view, d, hd, rfl⟩

namespace HasMembers

variable {s : Bytes} {members : List (Bytes × Bytes)} (h : HasMembers s members)

include h

theorem isValid : Json.isValid s = true := by
  obtain ⟨d, rfl, -⟩ := h
  exact d.isValid_text

theorem unique {members' : List (Bytes × Bytes)} (h' : HasMembers s members') :
    members = members' := by
  obtain ⟨d, rfl, rfl⟩ := h
  exact (d.hasMembers_iff.mp h').symm

theorem find?_members (name : Bytes) :
    ((Glimpse.members s).find? (·.name == name)).map (·.value) =
      (rawValue? name members).map Glimpse.ofText := by
  obtain ⟨d, rfl, rfl⟩ := h
  rw [d.members_text, ObjectText.find?_readings_value, ObjectText.view]

theorem find (name : Bytes) :
    Glimpse.find name s = (rawValue? name members).elim Glimpse.missing Glimpse.ofText := by
  obtain ⟨d, rfl, rfl⟩ := h
  exact d.find_text name

theorem isValue {name raw : Bytes} (hraw : rawValue? name members = some raw) : IsValue raw := by
  obtain ⟨d, rfl, rfl⟩ := h
  obtain ⟨m, hm, rfl⟩ := Option.map_eq_some_iff.mp hraw
  obtain ⟨m, -, rfl⟩ := List.mem_map.mp (List.mem_of_find?_eq_some hm)
  exact m.isValue

theorem raw_find {name raw : Bytes} (hraw : rawValue? name members = some raw) :
    (Glimpse.find name s).raw = raw := by
  rw [h.find, hraw, Option.elim_some, Glimpse.ofText_raw (h.isValue hraw).text]

/-- What the tolerant reader finds is there. -/
theorem rawValue?_eq {name raw : Bytes} (hraw : (Glimpse.find name s).raw = raw) (hne : raw ≠ []) :
    rawValue? name members = some raw := by
  cases hvalue : rawValue? name members with
  | none =>
    rw [h.find, hvalue] at hraw
    exact absurd hraw.symm hne
  | some value => rw [← hraw, h.raw_find hvalue]

/-- An object with no white space around it starts with its brace. -/
theorem ofText_eq (hs : IsValue s) :
    Glimpse.ofText s = ⟨.nested, s⟩ ∧ s.head? = some Bytes.openBrace := by
  obtain ⟨d, rfl, -⟩ := h
  have hfront : d.front = [] := by
    cases hfront : d.front with
    | nil => rfl
    | cons b front =>
      have hblank := d.front_blank b (by simp [hfront])
      have hhead := hs.head b (by simp [ObjectText.text, hfront])
      rw [hhead] at hblank
      cases hblank
  rw [ObjectText.text, hfront, List.nil_append]
  exact ⟨Glimpse.ofText_container rfl, rfl⟩

end HasMembers

end Json

end ScanTriage
