import Mathlib.Data.List.Basic
import Mathlib.Data.List.TakeWhile
import ScanTriage.Json.Valid

/-!
# Runs of the scanner

What `ScanState.run?` does with the parts of a text. What one byte can do to a
state is said once (`step_of_step?`). A run does not look below the containers it
started in (`run?_enclosed`), so a valid text can stand wherever a value is
expected (`run?_value`). Conversely, a run that starts at a value inside some
container and gets to the end of a valid text splits off exactly one value text
(`run?_value_split`).
-/

namespace ScanTriage

namespace Json

/-! ## Blank text -/

def Blank (s : Bytes) : Prop := ∀ b ∈ s, isBlank b = true

@[simp] theorem Blank.nil : Blank [] := by simp [Blank]

theorem Blank.eq_nil {s : Bytes} (hs : Blank s)
    (hlast : ∀ b, s.getLast? = some b → isBlank b = false) : s = [] := by
  rcases List.eq_nil_or_concat' s with rfl | ⟨s, b, rfl⟩
  · rfl
  · have hb := hs b (by simp)
    simp [hlast b (by simp)] at hb

theorem blank_takeWhile (s : Bytes) : Blank (s.takeWhile isBlank) :=
  fun _ hb => List.mem_takeWhile_imp hb

theorem dropWhile_append_cons {p : UInt8 → Bool} {ws t : Bytes} {b : UInt8}
    (hws : ∀ c ∈ ws, p c = true) (hb : p b = false) : (ws ++ b :: t).dropWhile p = b :: t := by
  rw [List.dropWhile_append_of_pos hws, List.dropWhile_cons_of_neg (by simp [hb])]

theorem isBlank_iff {b : UInt8} : isBlank b = true ↔
    b ∈ [Bytes.space, Bytes.tab, Bytes.newline, Bytes.carriageReturn] := by
  simp [isBlank, or_assoc]

/-- What holds of the four blank bytes holds of every byte of a blank text. -/
theorem Blank.forall_mem {p : UInt8 → Bool} {s : Bytes} (hs : Blank s)
    (hp : [Bytes.space, Bytes.tab, Bytes.newline, Bytes.carriageReturn].all p = true) :
    ∀ b ∈ s, p b = true :=
  fun b hb => List.all_eq_true.mp hp b (isBlank_iff.mp (hs b hb))

/-- What may stand after a value inside a container. -/
def isFollower (b : UInt8) : Bool :=
  isBlank b || b == Bytes.comma || b == Bytes.closeBracket || b == Bytes.closeBrace

theorem isFollower_of_isBlank {b : UInt8} (hb : isBlank b = true) : isFollower b = true := by
  simp [isFollower, hb]

/-- No number goes on with a byte that may stand after a value. -/
theorem NumberPart.extend?_follower {b : UInt8} (hb : isFollower b = true) (part : NumberPart) :
    part.extend? b = none := by
  have hdigit : Bytes.isDigit b = false := by grind [isFollower, isBlank, Bytes.isDigit]
  have hmark : extend?.isMark b = false := by grind [isFollower, isBlank, extend?.isMark]
  have hother : b ≠ Bytes.zero ∧ b ≠ Bytes.dot ∧ b ≠ Bytes.plus ∧ b ≠ Bytes.minus := by
    refine ⟨?_, ?_, ?_, ?_⟩ <;> rintro rfl <;> exact absurd hb (by decide)
  cases part <;> simp [extend?, hdigit, hmark, hother]

/-- The text goes on with a byte that may stand after a value. -/
def Follows (s : Bytes) : Prop := ∃ b t, s = b :: t ∧ isFollower b = true

theorem Follows.append_left {s t : Bytes} (hs : Blank s) (ht : Follows t) : Follows (s ++ t) := by
  cases s with
  | nil => exact ht
  | cons b s => exact ⟨b, s ++ t, rfl, by simp [isFollower, hs b (List.mem_cons_self ..)]⟩

/-- The text ends, or goes on as it may after a value. -/
def Ends (t : Bytes) : Prop := ∀ b, t.head? = some b → isFollower b = true

theorem ends_nil : Ends [] := by simp [Ends]

theorem Follows.ends {t : Bytes} (ht : Follows t) : Ends t := by
  obtain ⟨b, t, rfl, hb⟩ := ht
  rintro c ⟨⟩
  exact hb

theorem ends_cons {b : UInt8} {t : Bytes} (hb : isFollower b = true) : Ends (b :: t) := by
  rintro c ⟨⟩
  exact hb

namespace ScanState

/-! ## Steps and runs -/

variable {st st' fin : ScanState} {o : List Container} {b : UInt8} {s t : Bytes}

@[simp] theorem run?_nil (st : ScanState) : st.run? [] = some st := rfl

theorem run?_cons (st : ScanState) (b : UInt8) (s : Bytes) :
    st.run? (b :: s) = (st.step? b).bind (·.run? s) := rfl

theorem run?_append (st : ScanState) (s t : Bytes) :
    st.run? (s ++ t) = (st.run? s).bind (·.run? t) := List.foldlM_append ..

theorem run?_cons_of_step (h : st.step? b = some st') : st.run? (b :: s) = st'.run? s := by
  simp [run?_cons, h]

theorem run?_append_of_run (h : st.run? s = some st') : st.run? (s ++ t) = st'.run? t := by
  simp [run?_append, h]

/-- A run that gets through a byte has a state after it. -/
theorem step?_of_run (h : st.run? (b :: s) = some fin) :
    ∃ st', st.step? b = some st' ∧ st'.run? s = some fin :=
  Option.bind_eq_some_iff.mp h

theorem isComplete_iff : st.isComplete = true ↔
    st = ⟨.next, []⟩ ∨ ∃ part : NumberPart, part.isComplete = true ∧ st = ⟨.digits part, []⟩ := by
  rcases st with ⟨e, o⟩
  cases e <;> cases o <;> simp [isComplete]

theorem isComplete_opened (h : st.isComplete = true) : st.opened = [] := by
  rcases isComplete_iff.mp h with rfl | ⟨part, -, rfl⟩ <;> rfl

end ScanState

theorem isValid_iff {s : Bytes} : isValid s = true ↔
    ∃ fin, ScanState.start.run? s = some fin ∧ fin.isComplete = true := by
  unfold isValid
  cases ScanState.start.run? s <;> simp

def words : List Bytes := ["null", "true", "false"]

theorem letters_of_mem_words {b : UInt8} {rest : Bytes} (h : b :: rest ∈ words) :
    rest ≠ [] ∧ Bytes.isLower b = true ∧ rest.all Bytes.isLower = true := by
  have hwords : ∀ w ∈ words, w.tail ≠ [] ∧ w.all Bytes.isLower = true := by decide
  simpa using hwords _ h

def Expecting.skipsBlank : Expecting → Bool
  | value | firstItem | firstName | name | colon | next => true
  | _ => false

def Expecting.mayEnd : Expecting → Bool
  | next => true
  | digits part => part.isComplete
  | _ => false

/-- Whether the byte stands after a value, and so is a matter of the innermost
container. -/
def Expecting.leaves (b : UInt8) : Expecting → Bool
  | next => true
  | digits part => (part.extend? b).isNone
  | _ => false

namespace ScanState

variable {st st' fin : ScanState} {o : List Container} {b : UInt8} {s t : Bytes}

theorem step?_blank {e : Expecting} (he : e.skipsBlank = true) (hb : isBlank b = true) :
    step? ⟨e, o⟩ b = some ⟨e, o⟩ := by
  cases e <;> simp [Expecting.skipsBlank] at he <;> simp [step?, afterValue?, hb]

theorem run?_blank {e : Expecting} (he : e.skipsBlank = true) (hs : Blank s) :
    run? ⟨e, o⟩ (s ++ t) = run? ⟨e, o⟩ t := by
  induction s with
  | nil => rfl
  | cons b s ih =>
    rw [List.cons_append, run?_cons_of_step (step?_blank he (hs b (List.mem_cons_self ..)))]
    exact ih fun c hc => hs c (List.mem_cons_of_mem b hc)

theorem run?_blank_end {e : Expecting} (he : e.skipsBlank = true) (hs : Blank s) :
    run? ⟨e, o⟩ s = some ⟨e, o⟩ := by
  rw [← List.append_nil s, run?_blank he hs, run?_nil]

/-- Nothing but white space follows a whole text. -/
theorem blank_of_run_next (h : run? ⟨.next, []⟩ s = some fin) : Blank s ∧ fin = ⟨.next, []⟩ := by
  induction s with
  | nil => exact ⟨Blank.nil, by simpa using h.symm⟩
  | cons b s ih =>
    obtain ⟨st', hstep, hrun⟩ := step?_of_run h
    have hb : isBlank b = true := by
      by_contra hb
      simp [step?, afterValue?, hb] at hstep
    rw [step?_blank rfl hb] at hstep
    obtain ⟨hs, hfin⟩ := ih (by rwa [Option.some.inj hstep])
    exact ⟨List.forall_mem_cons.mpr ⟨hb, hs⟩, hfin⟩

theorem follows_of_run_next (ho : o ≠ []) (h : run? ⟨.next, o⟩ s = some fin)
    (hfin : fin.isComplete = true) : Follows s := by
  cases s with
  | nil =>
    obtain rfl : ⟨.next, o⟩ = fin := by simpa using h
    exact absurd (isComplete_opened hfin) ho
  | cons b s =>
    obtain ⟨st', hstep, -⟩ := step?_of_run h
    refine ⟨b, s, rfl, ?_⟩
    by_contra hb
    simp only [isFollower, Bool.not_eq_true, Bool.or_eq_false_iff] at hb
    rcases o with _ | ⟨c, o⟩
    · exact ho rfl
    · cases c <;> simp [step?, afterValue?, hb] at hstep

theorem beginValue?_cases (h : beginValue? b o = some st) :
    b = Bytes.quote ∧ st = ⟨.text false, o⟩ ∨
      b = Bytes.openBrace ∧ st = ⟨.firstName, .object :: o⟩ ∨
      b = Bytes.openBracket ∧ st = ⟨.firstItem, .array :: o⟩ ∨
      (b = Bytes.minus ∨ Bytes.isDigit b = true) ∧ (∃ part, st = ⟨.digits part, o⟩) ∨
      ∃ rest, b :: rest ∈ words ∧ st = ⟨.letters rest, o⟩ := by
  unfold beginValue? at h
  rcases ite_eq_iff.mp h with ⟨hquote, ⟨⟩⟩ | ⟨-, h⟩
  · exact .inl ⟨eq_of_beq hquote, rfl⟩
  rcases ite_eq_iff.mp h with ⟨hbrace, ⟨⟩⟩ | ⟨-, h⟩
  · exact .inr <| .inl ⟨eq_of_beq hbrace, rfl⟩
  rcases ite_eq_iff.mp h with ⟨hbracket, ⟨⟩⟩ | ⟨-, h⟩
  · exact .inr <| .inr <| .inl ⟨eq_of_beq hbracket, rfl⟩
  rcases ite_eq_iff.mp h with ⟨hminus, ⟨⟩⟩ | ⟨-, h⟩
  · exact .inr <| .inr <| .inr <| .inl ⟨.inl (eq_of_beq hminus), _, rfl⟩
  rcases ite_eq_iff.mp h with ⟨hzero, ⟨⟩⟩ | ⟨-, h⟩
  · obtain rfl := eq_of_beq hzero
    exact .inr <| .inr <| .inr <| .inl ⟨.inr rfl, _, rfl⟩
  rcases ite_eq_iff.mp h with ⟨hdigit, ⟨⟩⟩ | ⟨-, h⟩
  · exact .inr <| .inr <| .inr <| .inl ⟨.inr hdigit, _, rfl⟩
  rcases ite_eq_iff.mp h with ⟨ht, ⟨⟩⟩ | ⟨-, h⟩
  · obtain rfl := eq_of_beq ht
    exact .inr <| .inr <| .inr <| .inr ⟨"rue", by decide, rfl⟩
  rcases ite_eq_iff.mp h with ⟨hf, ⟨⟩⟩ | ⟨-, h⟩
  · obtain rfl := eq_of_beq hf
    exact .inr <| .inr <| .inr <| .inr ⟨"alse", by decide, rfl⟩
  rcases ite_eq_iff.mp h with ⟨hn, ⟨⟩⟩ | ⟨-, h⟩
  · obtain rfl := eq_of_beq hn
    exact .inr <| .inr <| .inr <| .inr ⟨"ull", by decide, rfl⟩
  cases h

theorem isBlank_of_beginValue? (h : beginValue? b o = some st) : isBlank b = false := by
  rcases beginValue?_cases h with ⟨rfl, -⟩ | ⟨rfl, -⟩ | ⟨rfl, -⟩ | ⟨rfl | hb, -⟩ | ⟨rest, hb, -⟩
  · rfl
  · rfl
  · rfl
  · rfl
  · grind [isBlank, Bytes.isDigit]
  · have hlower := (letters_of_mem_words hb).2.1
    grind [isBlank, Bytes.isLower]

theorem afterValue?_cases (h : afterValue? b o = some st) :
    isBlank b = true ∧ st = ⟨.next, o⟩ ∨
      b = Bytes.comma ∧ (∃ e, (e = .value ∨ e = .name) ∧ st = ⟨e, o⟩) ∨
      (b = Bytes.closeBracket ∨ b = Bytes.closeBrace) ∧
        ∃ c outer, o = c :: outer ∧ st = ⟨.next, outer⟩ := by
  revert h
  unfold afterValue?
  repeat' split
  all_goals rintro ⟨⟩
  all_goals simp_all

/-! ## What a step can do -/

/-- A state that a run can be in: the first item or name is expected inside a
container, and of a word some small letters are left. -/
def Sound (st : ScanState) : Prop :=
  match st.expecting with
  | .firstItem | .firstName => st.opened ≠ []
  | .letters rest => rest ≠ [] ∧ rest.all Bytes.isLower = true
  | _ => True

/-- The steps of the scanner from the states that a run can be in. -/
inductive Step : ScanState → UInt8 → ScanState → Prop
  | blank {e : Expecting} {o : List Container} {b : UInt8} (he : e.skipsBlank = true)
      (hb : isBlank b = true) : Step ⟨e, o⟩ b ⟨e, o⟩
  | begins {e : Expecting} {o : List Container} {b : UInt8} {st : ScanState}
      (he : e = .value ∨ e = .firstItem) (h : beginValue? b o = some st) : Step ⟨e, o⟩ b st
  | follows {e : Expecting} {o : List Container} {b : UInt8} {st : ScanState}
      (hb : e.leaves b = true) (h : afterValue? b o = some st) : Step ⟨e, o⟩ b st
  | empty {e : Expecting} {o : List Container} {c : Container} {b : UInt8}
      (h : e = .firstItem ∧ b = Bytes.closeBracket ∨ e = .firstName ∧ b = Bytes.closeBrace) :
      Step ⟨e, c :: o⟩ b ⟨.next, o⟩
  | name {e : Expecting} {o : List Container} (he : e = .firstName ∨ e = .name) :
      Step ⟨e, o⟩ Bytes.quote ⟨.text true, o⟩
  | colon {o : List Container} : Step ⟨.colon, o⟩ Bytes.colon ⟨.value, o⟩
  | quote {isName : Bool} {o : List Container} :
      Step ⟨.text isName, o⟩ Bytes.quote ⟨if isName then .colon else .next, o⟩
  | plain {isName : Bool} {o : List Container} {b : UInt8} (hquote : b ≠ Bytes.quote)
      (hslash : b ≠ Bytes.backslash) (hspace : ¬ b < 0x20) :
      Step ⟨.text isName, o⟩ b ⟨.text isName, o⟩
  | escape {isName : Bool} {o : List Container} :
      Step ⟨.text isName, o⟩ Bytes.backslash ⟨.escaped isName, o⟩
  | short {isName : Bool} {o : List Container} {b : UInt8} (hb : (shortEscape? b).isSome = true) :
      Step ⟨.escaped isName, o⟩ b ⟨.text isName, o⟩
  | unicode {isName : Bool} {o : List Container} :
      Step ⟨.escaped isName, o⟩ 0x75 ⟨.hex isName 4, o⟩
  | hex {isName : Bool} {left : Nat} {o : List Container} {b : UInt8}
      (hb : (Bytes.hexValue? b).isSome = true) : Step ⟨.hex isName left, o⟩ b
        ⟨if left ≤ 1 then .text isName else .hex isName (left - 1), o⟩
  | digit {part part' : NumberPart} {o : List Container} {b : UInt8}
      (h : part.extend? b = some part') : Step ⟨.digits part, o⟩ b ⟨.digits part', o⟩
  | letter {b : UInt8} {rest : Bytes} {o : List Container}
      (h : (b :: rest).all Bytes.isLower = true) :
      Step ⟨.letters (b :: rest), o⟩ b ⟨if rest.isEmpty then .next else .letters rest, o⟩

/-- There are no other steps. -/
theorem step_of_step? (hst : st.Sound) (h : st.step? b = some st') : Step st b st' := by
  rcases st with ⟨e, o⟩
  by_cases hblank : e.skipsBlank = true ∧ isBlank b = true
  · rw [step?_blank hblank.1 hblank.2] at h
    obtain rfl := Option.some.inj h
    exact .blank hblank.1 hblank.2
  have hb : e.skipsBlank = true → isBlank b = false := fun he => by simpa [he] using hblank
  cases e with
  | value =>
    simp only [step?, hb rfl, Bool.false_eq_true, if_false] at h
    exact .begins (.inl rfl) h
  | firstItem =>
    obtain ⟨c, outer, rfl⟩ := List.exists_cons_of_ne_nil hst
    simp only [step?, hb rfl, Bool.false_eq_true, if_false] at h
    split at h
    · next hclose =>
      obtain rfl := Option.some.inj h
      exact .empty (.inl ⟨rfl, eq_of_beq hclose⟩)
    · exact .begins (.inr rfl) h
  | firstName =>
    obtain ⟨c, outer, rfl⟩ := List.exists_cons_of_ne_nil hst
    simp only [step?, hb rfl, Bool.false_eq_true, if_false] at h
    split at h
    · next hclose =>
      obtain rfl := Option.some.inj h
      exact .empty (.inr ⟨rfl, eq_of_beq hclose⟩)
    obtain ⟨rfl, rfl⟩ : b = Bytes.quote ∧ ⟨.text true, c :: outer⟩ = st' := by simpa using h
    exact .name (.inl rfl)
  | name =>
    obtain ⟨rfl, rfl⟩ : b = Bytes.quote ∧ ⟨.text true, o⟩ = st' := by
      simpa [step?, hb rfl] using h
    exact .name (.inr rfl)
  | colon =>
    obtain ⟨rfl, rfl⟩ : b = Bytes.colon ∧ ⟨.value, o⟩ = st' := by simpa [step?, hb rfl] using h
    exact .colon
  | next => exact .follows rfl h
  | text isName =>
    simp only [step?] at h
    split at h
    · next hquote =>
      obtain rfl := Option.some.inj h
      obtain rfl := eq_of_beq hquote
      exact .quote
    split at h
    · next hslash =>
      obtain rfl := Option.some.inj h
      obtain rfl := eq_of_beq hslash
      exact .escape
    · next hquote hslash =>
      simp only [Option.ite_none_left_eq_some, Option.some.injEq] at h
      obtain ⟨hspace, rfl⟩ := h
      exact .plain (by simpa using hquote) (by simpa using hslash) hspace
  | escaped isName =>
    simp only [step?] at h
    split at h
    · next hu =>
      obtain rfl := Option.some.inj h
      obtain rfl := eq_of_beq hu
      exact .unicode
    simp only [Option.ite_none_right_eq_some, Option.some.injEq] at h
    obtain ⟨he, rfl⟩ := h
    exact .short he
  | hex isName left =>
    simp only [step?, Option.ite_none_right_eq_some, Option.some.injEq] at h
    obtain ⟨hhex, rfl⟩ := h
    exact .hex hhex
  | digits part =>
    simp only [step?] at h
    split at h
    · next part' hpart =>
      obtain rfl := Option.some.inj h
      exact .digit hpart
    · next hpart =>
      rw [Option.ite_none_right_eq_some] at h
      exact .follows (by simp [Expecting.leaves, hpart]) h.2
  | letters rest =>
    obtain ⟨c, more, rfl⟩ := List.exists_cons_of_ne_nil hst.1
    simp only [step?, Option.ite_none_right_eq_some, Option.some.injEq, beq_iff_eq] at h
    obtain ⟨rfl, rfl⟩ := h
    exact .letter hst.2

theorem beginValue?_sound (h : beginValue? b o = some st) : st.Sound := by
  rcases beginValue?_cases h with ⟨-, rfl⟩ | ⟨-, rfl⟩ | ⟨-, rfl⟩ | ⟨-, part, rfl⟩ | ⟨rest, hb, rfl⟩
  · trivial
  · exact List.cons_ne_nil _ _
  · exact List.cons_ne_nil _ _
  · trivial
  · obtain ⟨hne, -, hlower⟩ := letters_of_mem_words hb
    exact ⟨hne, hlower⟩

theorem afterValue?_sound (h : afterValue? b o = some st) : st.Sound := by
  rcases afterValue?_cases h with ⟨-, rfl⟩ | ⟨-, e, he, rfl⟩ | ⟨-, c, outer, -, rfl⟩
  · trivial
  · rcases he with rfl | rfl <;> trivial
  · trivial

/-- Steps lead to states that a run can be in. -/
theorem Step.sound (h : Step st b st') (hst : st.Sound) : st'.Sound := by
  cases h with
  | blank => exact hst
  | begins he h => exact beginValue?_sound h
  | follows hb h => exact afterValue?_sound h
  | @quote isName => cases isName <;> trivial
  | @hex isName left => by_cases hleft : left ≤ 1 <;> simp [Sound, hleft]
  | @letter b rest o h =>
    cases rest with
    | nil => trivial
    | cons c rest => exact ⟨by simp, (Bool.and_eq_true_iff.mp h).2⟩
  | empty | name | colon | plain | escape | short | unicode | digit => trivial

/-! ## Runs that go on -/

/-- A run that has to go on goes on with a byte. -/
theorem exists_step (h : st.run? t = some fin) (hfin : fin.isComplete = true)
    (hst : st.isComplete = false) :
    ∃ b t' st', t = b :: t' ∧ st.step? b = some st' ∧ st'.run? t' = some fin := by
  cases t with
  | nil =>
    obtain rfl : st = fin := by simpa using h
    exact absurd hfin (by simp [hst])
  | cons b t =>
    obtain ⟨st', hstep, hrun⟩ := step?_of_run h
    exact ⟨b, t, st', rfl, hstep, hrun⟩

/-- A run that has to go on passes over white space to the byte that matters. -/
theorem exists_token {e : Expecting} (he : e.skipsBlank = true) (h : run? ⟨e, o⟩ t = some fin)
    (hfin : fin.isComplete = true) (hst : isComplete ⟨e, o⟩ = false) :
    ∃ ws b t' st', t = ws ++ b :: t' ∧ Blank ws ∧ isBlank b = false ∧
      step? ⟨e, o⟩ b = some st' ∧ st'.run? t' = some fin := by
  have hws := blank_takeWhile t
  have hdrop : run? ⟨e, o⟩ (t.dropWhile isBlank) = some fin := by
    rw [← h, ← run?_blank he hws, List.takeWhile_append_dropWhile]
  obtain ⟨b, t', st', ht', hstep, hrun⟩ := exists_step hdrop hfin hst
  have hb := List.head?_dropWhile_not isBlank t
  rw [ht'] at hb
  exact ⟨t.takeWhile isBlank, b, t', st', by rw [← ht', List.takeWhile_append_dropWhile], hws, hb,
    hstep, hrun⟩

/-! ## Containers around a run -/

/-- The state with more containers around those that are open. -/
def enclosed (st : ScanState) (o : List Container) : ScanState := ⟨st.expecting, st.opened ++ o⟩

theorem beginValue?_enclosed (b : UInt8) (o' o : List Container) :
    beginValue? b (o' ++ o) = (beginValue? b o').map (·.enclosed o) := by
  simp only [beginValue?, apply_ite (Option.map _), Option.map_some, Option.map_none]
  rfl

theorem afterValue?_enclosed (b : UInt8) {o' : List Container} (ho : o' ≠ []) (o : List Container) :
    afterValue? b (o' ++ o) = (afterValue? b o').map (·.enclosed o) := by
  cases o' with
  | nil => exact absurd rfl ho
  | cons c o' =>
    cases c <;> simp only [afterValue?, List.cons_append] <;> repeat' split
    all_goals rfl

/-- Inside a container, and inside a value, nothing around it matters. -/
theorem step?_enclosed (h : st.Sound) (hb : st.opened ≠ [] ∨ st.expecting.leaves b = false)
    (o : List Container) : (st.enclosed o).step? b = (st.step? b).map (·.enclosed o) := by
  rcases st with ⟨e, o'⟩
  cases e with
  | value =>
    simp only [enclosed, step?, beginValue?_enclosed]
    split <;> rfl
  | firstItem =>
    have htail : (o' ++ o).tail = o'.tail ++ o := List.tail_append_of_ne_nil h
    simp only [enclosed, step?, beginValue?_enclosed, htail]
    repeat' split
    all_goals rfl
  | firstName =>
    have htail : (o' ++ o).tail = o'.tail ++ o := List.tail_append_of_ne_nil h
    simp only [enclosed, step?, htail]
    repeat' split
    all_goals rfl
  | next =>
    have ho : o' ≠ [] := by simpa [Expecting.leaves] using hb
    exact afterValue?_enclosed b ho o
  | digits part =>
    simp only [enclosed, step?]
    cases hpart : part.extend? b with
    | some part' => rfl
    | none =>
      have ho : o' ≠ [] := by simpa [Expecting.leaves, hpart] using hb
      simp only [afterValue?_enclosed b ho o]
      split <;> rfl
  | letters rest =>
    cases rest with
    | nil => exact absurd rfl h.1
    | cons c rest =>
      simp only [enclosed, step?]
      split <;> rfl
  | name | colon | text _ | escaped _ | hex _ _ =>
    simp only [enclosed, step?]
    repeat' split
    all_goals rfl

theorem isComplete_mk_nil (e : Expecting) : isComplete ⟨e, []⟩ = e.mayEnd := by
  cases e <;> rfl

theorem step?_of_leaves {e : Expecting} (hb : e.leaves b = true) :
    step? ⟨e, o⟩ b = if e.mayEnd then afterValue? b o else none := by
  cases e <;> simp only [Expecting.leaves, Bool.false_eq_true] at hb
  case next => rfl
  case digits part =>
    rw [Option.isNone_iff_eq_none] at hb
    simp only [step?, hb]
    rfl

theorem step?_enclosed_of_some (hst : st.Sound) (h : st.step? b = some st') (o : List Container) :
    (st.enclosed o).step? b = some (st'.enclosed o) := by
  by_cases hb : st.opened ≠ [] ∨ st.expecting.leaves b = false
  · rw [step?_enclosed hst hb, h]; rfl
  · -- Outside of every container only white space can follow.
    simp only [not_or, ne_eq, not_not, Bool.not_eq_false] at hb
    obtain ⟨ho, hb⟩ := hb
    rcases st with ⟨e, o'⟩
    obtain rfl : o' = [] := ho
    rw [step?_of_leaves hb] at h
    simp only [enclosed, List.nil_append]
    rw [step?_of_leaves hb]
    split at h
    · next hend =>
      simp only [afterValue?] at h ⊢
      split at h
      · next hblank =>
        obtain rfl := Option.some.inj h
        rw [if_pos hend, if_pos hblank]
        rfl
      · cases h
    · cases h

/-- A run goes the same way inside more containers. -/
theorem run?_enclosed (hst : st.Sound) (h : st.run? s = some fin) (o : List Container) :
    (st.enclosed o).run? s = some (fin.enclosed o) := by
  induction s generalizing st with
  | nil => simpa using congrArg (·.enclosed o) (Option.some.inj h)
  | cons b s ih =>
    obtain ⟨st', hstep, hrun⟩ := step?_of_run h
    rw [run?_cons_of_step (step?_enclosed_of_some hst hstep o)]
    exact ih ((step_of_step? hst hstep).sound hst) hrun

/-! ## Whole values -/

theorem run?_digits_follows {part : NumberPart} (hpart : part.isComplete = true)
    (hs : Follows s) : run? ⟨.digits part, o⟩ s = run? ⟨.next, o⟩ s := by
  obtain ⟨b, s, rfl, hb⟩ := hs
  have hleaves : (Expecting.digits part).leaves b = true := by
    simp [Expecting.leaves, NumberPart.extend?_follower hb]
  rw [run?_cons, run?_cons, step?_of_leaves hleaves, step?_of_leaves (e := .next) rfl]
  simp [Expecting.mayEnd, hpart]

/-- A complete state goes on as if a value had just ended. -/
theorem run?_complete_enclosed (hfin : fin.isComplete = true) (hs : Follows s) :
    (fin.enclosed o).run? s = run? ⟨.next, o⟩ s := by
  rcases isComplete_iff.mp hfin with rfl | ⟨part, hpart, rfl⟩
  · rfl
  · exact run?_digits_follows hpart hs

/-- A valid text can stand where a value is expected. -/
theorem run?_value {v : Bytes} (hv : isValid v = true) (hs : Follows s) :
    run? ⟨.value, o⟩ (v ++ s) = run? ⟨.next, o⟩ s := by
  obtain ⟨fin, hrun, hfin⟩ := isValid_iff.mp hv
  have hsound : start.Sound := trivial
  have hover : run? ⟨.value, o⟩ v = some (fin.enclosed o) := run?_enclosed hsound hrun o
  rw [run?_append_of_run hover, run?_complete_enclosed hfin hs]

/-- The byte that completes a value belongs to it, so it is not blank. -/
theorem Step.isBlank_eq_false (h : Step st b st') (hne : st ≠ ⟨.next, []⟩)
    (hst' : st'.isComplete = true) (hb : st.opened ≠ [] ∨ st.expecting.leaves b = false) :
    isBlank b = false := by
  cases h with
  | @blank e o b he hblank =>
    rcases isComplete_iff.mp hst' with hnext | ⟨part, -, hdigits⟩
    · exact absurd hnext hne
    · cases hdigits
      cases he
  | begins he h => exact isBlank_of_beginValue? h
  | follows hleaves h =>
    have ho := hb.resolve_right (by simp [hleaves])
    rcases afterValue?_cases h with ⟨-, rfl⟩ | ⟨rfl, -⟩ | ⟨rfl | rfl, -⟩
    · exact absurd (isComplete_opened hst') ho
    all_goals rfl
  | empty h => rcases h with ⟨-, rfl⟩ | ⟨-, rfl⟩ <;> rfl
  | digit h =>
    by_contra hblank
    simp only [Bool.not_eq_false] at hblank
    simp [NumberPart.extend?_follower (isFollower_of_isBlank hblank)] at h
  | letter h =>
    simp only [List.all_cons, Bool.and_eq_true] at h
    grind [isBlank, Bytes.isLower]
  | @hex isName left => by_cases hleft : left ≤ 1 <;> simp [isComplete, hleft] at hst'
  | plain | escape | short | unicode => simp [isComplete] at hst'
  | name | colon | quote => rfl

/-- The run of a value that stands inside a container ends, and the value is
as long as it can be. -/
theorem run?_enclosed_split (ho : o ≠ []) (hst : st.Sound) (hopen : st ≠ ⟨.next, []⟩)
    (h : (st.enclosed o).run? t = some fin) (hfin : fin.isComplete = true) :
    ∃ s rest st', t = s ++ rest ∧ st.run? s = some st' ∧ st'.isComplete = true ∧ Follows rest ∧
      run? ⟨.next, o⟩ rest = some fin ∧ ∀ b, s.getLast? = some b → isBlank b = false := by
  induction t generalizing st with
  | nil =>
    obtain rfl : st.enclosed o = fin := by simpa using h
    exact absurd (isComplete_opened hfin) (by simp [enclosed, ho])
  | cons b t ih =>
    obtain ⟨st₁, hstep, hrun⟩ := step?_of_run h
    by_cases hb : st.opened ≠ [] ∨ st.expecting.leaves b = false
    · rw [step?_enclosed hst hb, Option.map_eq_some_iff] at hstep
      obtain ⟨st', hstep, rfl⟩ := hstep
      by_cases hend : st' = ⟨.next, []⟩
      · subst hend
        refine ⟨[b], t, ⟨.next, []⟩, rfl, by simp [run?_cons, hstep], rfl, ?_, hrun, ?_⟩
        · exact follows_of_run_next ho hrun hfin
        · intro c hc
          obtain rfl : b = c := by simpa using hc
          exact (step_of_step? hst hstep).isBlank_eq_false hopen rfl hb
      · obtain ⟨s, rest, st₂, rfl, hs, hcomplete, hfollows, hrest, hlast⟩ :=
          ih ((step_of_step? hst hstep).sound hst) hend hrun
        refine ⟨b :: s, rest, st₂, rfl, by simp [run?_cons, hstep, hs], hcomplete, hfollows,
          hrest, ?_⟩
        intro c hc
        rw [List.getLast?_cons] at hc
        cases hlast? : s.getLast? with
        | some d => exact hlast c (by simpa [hlast?] using hc)
        | none =>
          obtain rfl : b = c := by simpa [hlast?] using hc
          obtain rfl : s = [] := List.getLast?_eq_none_iff.mp hlast?
          obtain rfl : st' = st₂ := by simpa using hs
          exact (step_of_step? hst hstep).isBlank_eq_false hopen hcomplete hb
    · -- A number ends in front of the byte.
      simp only [not_or, ne_eq, not_not, Bool.not_eq_false] at hb
      obtain ⟨hopened, hb⟩ := hb
      rcases st with ⟨e, o'⟩
      obtain rfl : o' = [] := hopened
      have hend : e.mayEnd = true := by
        by_contra hend
        simp [enclosed, step?_of_leaves hb, hend] at hstep
      have hcomplete : isComplete ⟨e, []⟩ = true := by rw [isComplete_mk_nil, hend]
      have hnext : run? ⟨.next, o⟩ (b :: t) = some fin := by
        have hafter : afterValue? b o = some st₁ := by
          simpa [enclosed, step?_of_leaves hb, hend] using hstep
        rw [run?_cons_of_step (step?_of_leaves (e := .next) rfl |>.trans hafter), hrun]
      exact ⟨[], b :: t, _, rfl, rfl, hcomplete, follows_of_run_next ho hnext hfin, hnext,
        by simp⟩

end ScanState

/-- The text of one value, with no white space around it. -/
structure IsValue (v : Bytes) : Prop where
  valid : isValid v = true
  head : ∀ b, v.head? = some b → isBlank b = false
  last : ∀ b, v.getLast? = some b → isBlank b = false

namespace ScanState

variable {st st' fin : ScanState} {o : List Container} {b : UInt8} {s t : Bytes}

/-- What stands in a container where a value is expected starts with a value
text, after white space. -/
theorem run?_value_split (ho : o ≠ []) (h : run? ⟨.value, o⟩ t = some fin)
    (hfin : fin.isComplete = true) :
    ∃ ws v rest, t = ws ++ (v ++ rest) ∧ Blank ws ∧ IsValue v ∧ Follows rest ∧
      run? ⟨.next, o⟩ rest = some fin := by
  have hws := blank_takeWhile t
  rw [← List.takeWhile_append_dropWhile (p := isBlank) (l := t), run?_blank rfl hws] at h
  have hsound : start.Sound := trivial
  obtain ⟨v, rest, st, hv, hrun, hst, hfollows, hrest, hlast⟩ :=
    run?_enclosed_split ho hsound (by decide) h hfin
  refine ⟨t.takeWhile isBlank, v, rest, by simp [← hv], hws, ⟨?_, ?_, hlast⟩, hfollows, hrest⟩
  · exact isValid_iff.mpr ⟨st, hrun, hst⟩
  · intro b hb
    have hhead := List.head?_dropWhile_not isBlank t
    rwa [hv, List.head?_append, hb] at hhead

end ScanState

/-- A valid text is a value text with white space around it. -/
theorem exists_isValue {s : Bytes} (hs : isValid s = true) :
    ∃ ws v ws', s = ws ++ (v ++ ws') ∧ Blank ws ∧ IsValue v ∧ Blank ws' := by
  -- Inside an array, the run of the text splits off a value in front of the bracket.
  have hclose : Follows [Bytes.closeBracket] := ⟨_, _, rfl, rfl⟩
  have hrun : ScanState.run? ⟨.value, [.array]⟩ (s ++ [Bytes.closeBracket]) =
      some ⟨.next, []⟩ := ScanState.run?_value hs hclose
  obtain ⟨ws, v, rest, heq, hws, hv, hfollows, -⟩ :=
    ScanState.run?_value_split (by simp) hrun rfl
  rcases List.eq_nil_or_concat' rest with rfl | ⟨rest, b, rfl⟩
  · obtain ⟨b, t, ht, -⟩ := hfollows
    cases ht
  have heq : s ++ [Bytes.closeBracket] = ws ++ (v ++ rest) ++ [b] := by simpa using heq
  have hs' : s = ws ++ (v ++ rest) := (List.append_inj' heq rfl).1
  refine ⟨ws, v, rest, hs', hws, hv, ?_⟩
  cases rest with
  | nil => exact Blank.nil
  | cons c rest =>
    have hfollows : Follows (c :: rest) := by
      obtain ⟨d, t, ht, hd⟩ := hfollows
      cases ht
      exact ⟨c, rest, rfl, hd⟩
    obtain ⟨fin, hfin, -⟩ := isValid_iff.mp hs
    rw [hs', ScanState.start, ScanState.run?_blank rfl hws,
      ScanState.run?_value hv.valid hfollows] at hfin
    exact (ScanState.blank_of_run_next hfin).1

/-! ## Strings -/

/-- The text between the quotes of a string. -/
inductive StringBody : Bytes → Prop
  | nil : StringBody []
  | plain {b : UInt8} {s : Bytes} (hquote : b ≠ Bytes.quote) (hslash : b ≠ Bytes.backslash)
      (hspace : ¬ b < 0x20) (hs : StringBody s) : StringBody (b :: s)
  | short {e : UInt8} {s : Bytes} (he : (shortEscape? e).isSome = true) (hs : StringBody s) :
      StringBody (Bytes.backslash :: e :: s)
  | unicode {h₁ h₂ h₃ h₄ : UInt8} {s : Bytes}
      (hex : ∀ h ∈ [h₁, h₂, h₃, h₄], (Bytes.hexValue? h).isSome = true) (hs : StringBody s) :
      StringBody (Bytes.backslash :: 0x75 :: h₁ :: h₂ :: h₃ :: h₄ :: s)

namespace ScanState

variable {st st' fin : ScanState} {o : List Container} {b : UInt8} {s t : Bytes} {isName : Bool}

theorem step?_hex_iff {left : Nat} : step? ⟨.hex isName left, o⟩ b = some st' ↔
    (Bytes.hexValue? b).isSome = true ∧
      st' = ⟨if left ≤ 1 then .text isName else .hex isName (left - 1), o⟩ := by
  simp only [step?]
  split
  · next hb => simp only [hb, Option.some.injEq, true_and, eq_comm]
  · next hb => simp [hb]

theorem run?_body {body : Bytes} (h : StringBody body) :
    run? ⟨.text isName, o⟩ (body ++ t) = run? ⟨.text isName, o⟩ t := by
  have hslash : step? ⟨.text isName, o⟩ Bytes.backslash = some ⟨.escaped isName, o⟩ := rfl
  induction h with
  | nil => rfl
  | plain hquote hslash hspace hs ih =>
    rw [List.cons_append, run?_cons_of_step, ih]
    simp [step?, hquote, hslash, hspace]
  | @short e s he hs ih =>
    have hu : e ≠ 0x75 := by
      rintro rfl
      exact absurd he (by decide)
    have hstep : step? ⟨.escaped isName, o⟩ e = some ⟨.text isName, o⟩ := by simp [step?, hu, he]
    rw [List.cons_append, run?_cons_of_step hslash, List.cons_append, run?_cons_of_step hstep, ih]
  | unicode hex hs ih =>
    simp only [List.forall_mem_cons] at hex
    obtain ⟨hex₁, hex₂, hex₃, hex₄, -⟩ := hex
    have hu : step? ⟨.escaped isName, o⟩ 0x75 = some ⟨.hex isName 4, o⟩ := rfl
    simp only [List.cons_append]
    rw [run?_cons_of_step hslash, run?_cons_of_step hu,
      run?_cons_of_step (step?_hex_iff.mpr ⟨hex₁, rfl⟩), if_neg (by decide),
      run?_cons_of_step (step?_hex_iff.mpr ⟨hex₂, rfl⟩), if_neg (by decide),
      run?_cons_of_step (step?_hex_iff.mpr ⟨hex₃, rfl⟩), if_neg (by decide),
      run?_cons_of_step (step?_hex_iff.mpr ⟨hex₄, rfl⟩), if_pos (by decide), ih]

theorem run?_hex_split (h : run? ⟨.hex isName 4, o⟩ t = some fin) (hfin : fin.isComplete = true) :
    ∃ h₁ h₂ h₃ h₄ rest, t = h₁ :: h₂ :: h₃ :: h₄ :: rest ∧
      (∀ h ∈ [h₁, h₂, h₃, h₄], (Bytes.hexValue? h).isSome = true) ∧
      run? ⟨.text isName, o⟩ rest = some fin := by
  obtain ⟨h₁, t, st, rfl, hstep, hrun⟩ := exists_step h hfin (by simp [isComplete])
  obtain ⟨hex₁, rfl⟩ := step?_hex_iff.mp hstep
  obtain ⟨h₂, t, st, rfl, hstep, hrun⟩ := exists_step hrun hfin (by simp [isComplete])
  obtain ⟨hex₂, rfl⟩ := step?_hex_iff.mp hstep
  obtain ⟨h₃, t, st, rfl, hstep, hrun⟩ := exists_step hrun hfin (by simp [isComplete])
  obtain ⟨hex₃, rfl⟩ := step?_hex_iff.mp hstep
  obtain ⟨h₄, t, st, rfl, hstep, hrun⟩ := exists_step hrun hfin (by simp [isComplete])
  obtain ⟨hex₄, rfl⟩ := step?_hex_iff.mp hstep
  exact ⟨h₁, h₂, h₃, h₄, t, rfl, by simp [hex₁, hex₂, hex₃, hex₄], hrun⟩

/-- A run through a string splits off its body. -/
theorem run?_text_split (h : run? ⟨.text isName, o⟩ t = some fin) (hfin : fin.isComplete = true) :
    ∃ body rest, t = body ++ Bytes.quote :: rest ∧ StringBody body ∧
      run? ⟨if isName then .colon else .next, o⟩ rest = some fin := by
  induction hn : t.length using Nat.strong_induction_on generalizing t with
  | _ n ih =>
  obtain ⟨b, t, st, rfl, hstep, hrun⟩ := exists_step h hfin (by simp [isComplete])
  simp only [step?] at hstep
  split at hstep
  · next hquote =>
    obtain rfl := eq_of_beq hquote
    obtain rfl := Option.some.inj hstep
    exact ⟨[], t, rfl, .nil, hrun⟩
  split at hstep
  · next hslash =>
    obtain rfl := eq_of_beq hslash
    obtain rfl := Option.some.inj hstep
    obtain ⟨e, t, st, rfl, hstep, hrun⟩ := exists_step hrun hfin (by simp [isComplete])
    simp only [step?] at hstep
    split at hstep
    · next hu =>
      obtain rfl := eq_of_beq hu
      obtain rfl := Option.some.inj hstep
      obtain ⟨h₁, h₂, h₃, h₄, t, rfl, hex, hrun⟩ := run?_hex_split hrun hfin
      obtain ⟨body, rest, rfl, hbody, hrest⟩ :=
        ih t.length (by simp only [List.length_cons] at hn; omega) hrun rfl
      exact ⟨_, rest, rfl, .unicode hex hbody, hrest⟩
    split at hstep
    · next he =>
      obtain rfl := Option.some.inj hstep
      obtain ⟨body, rest, rfl, hbody, hrest⟩ :=
        ih t.length (by simp only [List.length_cons] at hn; omega) hrun rfl
      exact ⟨_, rest, rfl, .short he hbody, hrest⟩
    · cases hstep
  split at hstep
  · cases hstep
  · next hquote hslash hspace =>
    obtain rfl := Option.some.inj hstep
    obtain ⟨body, rest, rfl, hbody, hrest⟩ :=
      ih t.length (by simp only [List.length_cons] at hn; omega) hrun rfl
    exact ⟨b :: body, rest, rfl,
      .plain (by simpa using hquote) (by simpa using hslash) hspace hbody, hrest⟩

end ScanState

end Json

end ScanTriage
