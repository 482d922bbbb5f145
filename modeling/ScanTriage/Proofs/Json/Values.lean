import Mathlib.Data.List.TakeDrop
import ScanTriage.Json.Glimpse
import ScanTriage.Proofs.Json.Scan

/-!
# Value texts under the tolerant reader

The tolerant reader knows no grammar: it looks for quotes, counts brackets and
stops numbers at a separator. On a value text it covers exactly that text
(`nextValue?_value`). For a container this is a simulation: the number of open
brackets keeps step with the stack of the scanner (`takeNested_step`).
-/

namespace ScanTriage

namespace Json

/-! ## Containers -/

/-- How the bracket counter sees a state of the scanner. -/
def Expecting.within : Expecting → Glimpse.Within
  | text _ | hex _ _ => .string
  | escaped _ => .escape
  | _ => .outside

/-- A byte that neither a string nor a container starts or ends with. -/
def isNeutral (b : UInt8) : Bool :=
  b != Bytes.quote && b != Bytes.openBrace && b != Bytes.openBracket && b != Bytes.openParen &&
    b != Bytes.closeBrace && b != Bytes.closeBracket && b != Bytes.closeParen

theorem isNeutral_of_isBlank {b : UInt8} (hb : isBlank b = true) : isNeutral b = true := by
  grind [isBlank, isNeutral]

theorem isNeutral_of_isDigit {b : UInt8} (hb : Bytes.isDigit b = true) : isNeutral b = true := by
  grind [Bytes.isDigit, isNeutral]

theorem isNeutral_of_isLower {b : UInt8} (hb : Bytes.isLower b = true) : isNeutral b = true := by
  grind [Bytes.isLower, isNeutral]

def isNumeral (b : UInt8) : Bool :=
  Bytes.isDigit b || b == Bytes.plus || b == Bytes.minus || b == Bytes.dot || b == 0x65 || b == 0x45

theorem isNumeral_cases {b : UInt8} (hb : isNumeral b = true) :
    Bytes.isDigit b = true ∨ b ∈ [Bytes.plus, Bytes.minus, Bytes.dot, 0x65, 0x45] := by
  simpa [isNumeral, or_assoc] using hb

theorem NumberPart.isNumeral_of_extend? {b : UInt8} {part part' : NumberPart}
    (h : part.extend? b = some part') : isNumeral b = true := by
  cases part <;> grind [extend?, extend?.isMark, isNumeral, Bytes.isDigit]

theorem isNeutral_of_isNumeral {b : UInt8} (hb : isNumeral b = true) : isNeutral b = true := by
  have hother : [Bytes.plus, Bytes.minus, Bytes.dot, 0x65, 0x45].all isNeutral = true := by decide
  rcases isNumeral_cases hb with hb | hb
  · exact isNeutral_of_isDigit hb
  · exact List.all_eq_true.mp hother b hb

theorem endsNumber_of_isNumeral {b : UInt8} (hb : isNumeral b = true) :
    Glimpse.endsNumber b = false := by
  have hother : [Bytes.plus, Bytes.minus, Bytes.dot, 0x65, 0x45].all
    (fun b => !Glimpse.endsNumber b) = true := by decide
  rcases isNumeral_cases hb with hb | hb
  · grind [Bytes.isDigit, Glimpse.endsNumber]
  · simpa using List.all_eq_true.mp hother b hb

namespace Glimpse

variable {depth : Nat} {acc t : Bytes} {b : UInt8}

theorem takeNested_neutral (hb : isNeutral b = true) :
    takeNested depth .outside acc (b :: t) = takeNested depth .outside (b :: acc) t := by
  simp only [isNeutral, Bool.and_eq_true, bne_iff_ne, ne_eq] at hb
  simp [takeNested, hb]

theorem takeNested_quote : takeNested depth .outside acc (Bytes.quote :: t) =
    takeNested depth .string (Bytes.quote :: acc) t := by
  simp [takeNested]

theorem takeNested_open (hb : b = Bytes.openBrace ∨ b = Bytes.openBracket) :
    takeNested depth .outside acc (b :: t) = takeNested (depth + 1) .outside (b :: acc) t := by
  rcases hb with rfl | rfl <;> rfl

/-- What a bracket counter gives once `open` brackets are left open. -/
def takeRest (within : Within) (acc t : Bytes) : (left : Nat) → Bytes × Bytes
  | 0 => (acc.reverse, t)
  | depth + 1 => takeNested depth within acc t

theorem takeNested_close (hb : b = Bytes.closeBrace ∨ b = Bytes.closeBracket) :
    takeNested depth .outside acc (b :: t) = takeRest .outside (b :: acc) t depth := by
  cases depth <;> rcases hb with rfl | rfl <;> rfl

end Glimpse

namespace ScanState

open Glimpse

variable {st st' fin : ScanState} {o : List Container} {b : UInt8} {s t acc : Bytes} {depth : Nat}

/-- Around the parts of a value and inside its containers, brackets count. -/
theorem within_eq_outside {e : Expecting} (h : e.skipsBlank = true ∨ e.leaves b = true) :
    e.within = .outside := by
  cases e <;> simp_all [Expecting.skipsBlank, Expecting.leaves, Expecting.within]

theorem takeNested_beginValue? (h : beginValue? b o = some st') (ho : o.length = depth + 1) :
    takeNested depth .outside acc (b :: t) =
      takeRest st'.expecting.within (b :: acc) t st'.opened.length := by
  rcases beginValue?_cases h with ⟨rfl, rfl⟩ | ⟨rfl, rfl⟩ | ⟨rfl, rfl⟩ | ⟨hb, part, rfl⟩ |
    ⟨rest, hb, rfl⟩
  · rw [takeNested_quote, ho]; rfl
  · rw [takeNested_open (.inl rfl), List.length_cons, ho]; rfl
  · rw [takeNested_open (.inr rfl), List.length_cons, ho]; rfl
  · have hneutral : isNeutral b = true := by
      rcases hb with rfl | hb
      · rfl
      · exact isNeutral_of_isDigit hb
    rw [takeNested_neutral hneutral, ho]; rfl
  · rw [takeNested_neutral (isNeutral_of_isLower (letters_of_mem_words hb).2.1), ho]; rfl

theorem takeNested_afterValue? (h : afterValue? b o = some st') (ho : o.length = depth + 1) :
    takeNested depth .outside acc (b :: t) =
      takeRest st'.expecting.within (b :: acc) t st'.opened.length := by
  rcases afterValue?_cases h with ⟨hb, rfl⟩ | ⟨rfl, e, he, rfl⟩ | ⟨hb, c, outer, rfl, rfl⟩
  · rw [takeNested_neutral (isNeutral_of_isBlank hb), ho]; rfl
  · rw [takeNested_neutral rfl, ho]
    rcases he with rfl | rfl <;> rfl
  · obtain rfl : outer.length = depth := by simpa using ho
    rw [takeNested_close hb.symm]; rfl

/-- The bracket counter keeps step with the scanner. -/
theorem takeNested_step (h : Step st b st') (ho : st.opened.length = depth + 1) :
    takeNested depth st.expecting.within acc (b :: t) =
      takeRest st'.expecting.within (b :: acc) t st'.opened.length := by
  cases h with
  | blank he hb =>
    rw [within_eq_outside (b := b) (.inl he), takeNested_neutral (isNeutral_of_isBlank hb), ho]
    rfl
  | begins he h => rcases he with rfl | rfl <;> exact takeNested_beginValue? h ho
  | follows hb h =>
    rw [within_eq_outside (.inr hb)]
    exact takeNested_afterValue? h ho
  | @empty e o c b h =>
    obtain rfl : o.length = depth := by simpa using ho
    rcases h with ⟨rfl, rfl⟩ | ⟨rfl, rfl⟩
    · exact takeNested_close (.inr rfl)
    · exact takeNested_close (.inl rfl)
  | name he =>
    rw [ho]
    rcases he with rfl | rfl <;> exact takeNested_quote
  | colon =>
    rw [ho]
    exact takeNested_neutral rfl
  | @quote isName =>
    rw [ho]
    cases isName <;> simp [Expecting.within, takeNested, takeRest]
  | plain hquote hslash hspace =>
    simp [Expecting.within, takeNested, takeRest, hquote, hslash, ho]
  | escape | short | unicode =>
    rw [ho]
    rfl
  | @hex isName left o b hb =>
    have hquote : b ≠ Bytes.quote := by
      rintro rfl
      exact absurd hb (by decide)
    have hslash : b ≠ Bytes.backslash := by
      rintro rfl
      exact absurd hb (by decide)
    rw [ho]
    by_cases hleft : left ≤ 1 <;>
      simp [Expecting.within, takeNested, takeRest, hquote, hslash, hleft]
  | digit h =>
    rw [ho]
    exact takeNested_neutral (isNeutral_of_isNumeral (NumberPart.isNumeral_of_extend? h))
  | @letter b rest o h =>
    simp only [List.all_cons, Bool.and_eq_true] at h
    rw [ho]
    refine (takeNested_neutral (isNeutral_of_isLower h.1)).trans ?_
    cases rest <;> rfl

/-- The step that closes the last container ends the value. -/
theorem Step.eq_next (h : Step st b st') (hopen : st.opened ≠ []) (hclosed : st'.opened = []) :
    st' = ⟨.next, []⟩ := by
  cases h with
  | begins he h =>
    rcases beginValue?_cases h with ⟨-, rfl⟩ | ⟨-, rfl⟩ | ⟨-, rfl⟩ | ⟨-, part, rfl⟩ | ⟨rest, -, rfl⟩
    all_goals first
      | exact absurd hclosed hopen
      | cases hclosed
  | follows hb h =>
    rcases afterValue?_cases h with ⟨-, rfl⟩ | ⟨-, e, -, rfl⟩ | ⟨-, c, outer, -, rfl⟩
    · exact absurd hclosed hopen
    · exact absurd hclosed hopen
    · exact congrArg (ScanState.mk .next) hclosed
  | empty => exact congrArg (ScanState.mk .next) hclosed
  | blank | name | colon | quote | plain | escape | short | unicode | hex | digit | letter =>
    exact absurd hclosed hopen

/-- The bracket counter stops where a container ends. -/
theorem takeNested_run (hst : st.Sound) (ho : st.opened.length = depth + 1)
    (h : st.run? s = some fin) (hfin : fin.isComplete = true)
    (hlast : ∀ b, s.getLast? = some b → isBlank b = false) :
    takeNested depth st.expecting.within acc (s ++ t) = (acc.reverse ++ s, t) := by
  induction s generalizing st depth acc with
  | nil =>
    obtain rfl : st = fin := by simpa using h
    simp [isComplete_opened hfin] at ho
  | cons b s ih =>
    obtain ⟨st', hstep, hrun⟩ := step?_of_run h
    have hopen : st.opened ≠ [] := by
      intro hnil
      simp [hnil] at ho
    have hlast' : ∀ c, s.getLast? = some c → isBlank c = false := by
      intro c hc
      exact hlast c (by simp [List.getLast?_cons, hc])
    replace hstep := step_of_step? hst hstep
    rw [List.cons_append, takeNested_step hstep ho]
    cases hdepth : st'.opened.length with
    | zero =>
      obtain rfl := hstep.eq_next hopen (List.length_eq_zero_iff.mp hdepth)
      -- Only white space could follow, and the text does not end with any.
      obtain rfl := (blank_of_run_next hrun).1.eq_nil hlast'
      simp [takeRest]
    | succ depth' =>
      rw [takeRest, ih (hstep.sound hst) hdepth hrun hlast']
      simp

end ScanState

/-! ## The kinds of value texts -/

/-- A value text by the kind of its value. -/
inductive ValueText : Bytes → Prop
  | string {body : Bytes} (h : StringBody body) : ValueText (Bytes.quote :: (body ++ [Bytes.quote]))
  | container {b : UInt8} {s : Bytes} (hb : Glimpse.startsContainer b = true)
      (h : ∀ acc t, Glimpse.takeNested 0 .outside acc (s ++ t) = (acc.reverse ++ s, t)) :
      ValueText (b :: s)
  | number {b : UInt8} {s : Bytes} (hb : b = Bytes.minus ∨ Bytes.isDigit b = true)
      (h : ∀ c ∈ s, isNumeral c = true) : ValueText (b :: s)
  | word {w : Bytes} (h : w ∈ words) : ValueText w

namespace ScanState

variable {fin : ScanState} {o : List Container} {s t : Bytes}

theorem run?_letters_split {w : Bytes} (hw : w ≠ []) (h : run? ⟨.letters w, o⟩ t = some fin)
    (hfin : fin.isComplete = true) :
    ∃ rest, t = w ++ rest ∧ run? ⟨.next, o⟩ rest = some fin := by
  induction w generalizing t with
  | nil => exact absurd rfl hw
  | cons c w ih =>
    obtain ⟨b, t, st, rfl, hstep, hrun⟩ := exists_step h hfin (by simp [isComplete])
    simp only [step?] at hstep
    split at hstep
    · next hb =>
      obtain rfl := eq_of_beq hb
      obtain rfl := Option.some.inj hstep
      cases w with
      | nil => exact ⟨t, rfl, hrun⟩
      | cons d w =>
        obtain ⟨rest, rfl, hrest⟩ := ih (by simp) hrun
        exact ⟨rest, rfl, hrest⟩
    · cases hstep

theorem run?_digits_bytes {part : NumberPart} (h : run? ⟨.digits part, []⟩ s = some fin)
    (hlast : ∀ b, s.getLast? = some b → isBlank b = false) :
    ∀ c ∈ s, isNumeral c = true := by
  induction s generalizing part with
  | nil => simp
  | cons b s ih =>
    have hlast' : ∀ c, s.getLast? = some c → isBlank c = false := by
      intro c hc
      exact hlast c (by simp [List.getLast?_cons, hc])
    obtain ⟨st, hstep, hrun⟩ := step?_of_run h
    cases hpart : part.extend? b with
    | some part' =>
      simp only [step?, hpart, Option.some.injEq] at hstep
      subst hstep
      exact List.forall_mem_cons.mpr ⟨NumberPart.isNumeral_of_extend? hpart, ih hrun hlast'⟩
    | none =>
      -- The number ends here, and only white space could follow.
      rw [step?_of_leaves (by simp [Expecting.leaves, hpart])] at hstep
      split at hstep
      · rcases afterValue?_cases hstep with ⟨hb, rfl⟩ | ⟨rfl, -⟩ | ⟨-, c, outer, ho, -⟩
        · obtain rfl := (blank_of_run_next hrun).1.eq_nil hlast'
          simp [hlast b rfl] at hb
        · cases hstep
        · cases ho
      · cases hstep

end ScanState

theorem IsValue.text {v : Bytes} (hv : IsValue v) : ValueText v := by
  obtain ⟨fin, hrun, hfin⟩ := isValid_iff.mp hv.valid
  obtain ⟨b, s, st, rfl, hstep, hrun⟩ := ScanState.exists_step hrun hfin rfl
  have hb : isBlank b = false := hv.head b rfl
  simp only [ScanState.start, ScanState.step?, hb, Bool.false_eq_true, if_false] at hstep
  have hlast : ∀ c, s.getLast? = some c → isBlank c = false := by
    intro c hc
    exact hv.last c (by simp [List.getLast?_cons, hc])
  have hsound := ScanState.beginValue?_sound hstep
  rcases ScanState.beginValue?_cases hstep with ⟨rfl, rfl⟩ | ⟨rfl, rfl⟩ | ⟨rfl, rfl⟩ |
    ⟨hb, part, rfl⟩ | ⟨rest, hw, rfl⟩
  · obtain ⟨body, rest, rfl, hbody, hrest⟩ := ScanState.run?_text_split hrun hfin
    have hlast' : ∀ c, rest.getLast? = some c → isBlank c = false := by
      intro c hc
      exact hlast c (by simp [List.getLast?_cons, hc])
    obtain rfl := (ScanState.blank_of_run_next hrest).1.eq_nil hlast'
    exact .string hbody
  · exact .container rfl fun acc t => ScanState.takeNested_run hsound rfl hrun hfin hlast
  · exact .container rfl fun acc t => ScanState.takeNested_run hsound rfl hrun hfin hlast
  · exact .number hb (ScanState.run?_digits_bytes hrun hlast)
  · obtain ⟨rest', rfl, hrest⟩ := ScanState.run?_letters_split hsound.1 hrun hfin
    have hlast' : ∀ c, rest'.getLast? = some c → isBlank c = false := by
      intro c hc
      exact hlast c (by simp [hc])
    obtain rfl := (ScanState.blank_of_run_next hrest).1.eq_nil hlast'
    exact .word (by simpa using hw)

theorem ValueText.exists_cons {v : Bytes} (hv : ValueText v) :
    ∃ b s, v = b :: s ∧ ¬ b ≤ 0x20 ∧ isBlank b = false := by
  cases hv with
  | string h => exact ⟨_, _, rfl, by decide, rfl⟩
  | container hb h => exact ⟨_, _, rfl, by grind [Glimpse.startsContainer], by
      grind [Glimpse.startsContainer, isBlank]⟩
  | number hb h => exact ⟨_, _, rfl, by grind [Bytes.isDigit], by grind [Bytes.isDigit, isBlank]⟩
  | word h =>
    have hwords : ∀ w ∈ words, ∃ b s, w = b :: s ∧ ¬ b ≤ 0x20 ∧ isBlank b = false := by
      simp only [words, List.forall_mem_cons]
      exact ⟨⟨_, _, rfl, by decide, rfl⟩, ⟨_, _, rfl, by decide, rfl⟩, ⟨_, _, rfl, by decide, rfl⟩,
        List.forall_mem_nil _⟩
    exact hwords v h

theorem ValueText.string_or_plain {v : Bytes} (hv : ValueText v) :
    (∃ body, StringBody body ∧ v = Bytes.quote :: (body ++ [Bytes.quote])) ∨
      ∃ b s, v = b :: s ∧ b ≠ Bytes.quote := by
  cases hv with
  | string h => exact .inl ⟨_, h, rfl⟩
  | container hb h => exact .inr ⟨_, _, rfl, by rintro rfl; exact absurd hb (by decide)⟩
  | number hb h => exact .inr ⟨_, _, rfl, by rintro rfl; exact absurd hb (by decide)⟩
  | word h =>
    simp only [words, List.mem_cons, List.not_mem_nil, or_false] at h
    rcases h with rfl | rfl | rfl
    all_goals exact .inr ⟨_, _, rfl, by decide⟩

namespace Glimpse

variable {v body rest acc : Bytes} {b : UInt8}

/-! ## Reading a value text -/

theorem takeString?_plain {s : Bytes} (hquote : b ≠ Bytes.quote) (hslash : b ≠ Bytes.backslash) :
    takeString? false acc (b :: s) = takeString? false (b :: acc) s := by
  have hslash : (b == Bytes.backslash) = false := by simpa using hslash
  simp [takeString?, hquote, hslash]

theorem takeString?_escape {s : Bytes} : takeString? false acc (Bytes.backslash :: b :: s) =
    takeString? false (b :: Bytes.backslash :: acc) s := rfl

theorem takeString?_hex {s : Bytes} (hb : (Bytes.hexValue? b).isSome = true) :
    takeString? false acc (b :: s) = takeString? false (b :: acc) s := by
  apply takeString?_plain
  all_goals
    rintro rfl
    exact absurd hb (by decide)

theorem takeString?_body (h : StringBody body) :
    takeString? false acc (body ++ Bytes.quote :: rest) = some (acc.reverse ++ body, rest) := by
  induction h generalizing acc with
  | nil => simp [takeString?]
  | plain hquote hslash hspace hs ih =>
    rw [List.cons_append, takeString?_plain hquote hslash, ih]
    simp
  | short he hs ih =>
    rw [List.cons_append, List.cons_append, takeString?_escape, ih]
    simp
  | unicode hex hs ih =>
    simp only [List.forall_mem_cons] at hex
    obtain ⟨hex₁, hex₂, hex₃, hex₄, -⟩ := hex
    simp only [List.cons_append]
    rw [takeString?_escape, takeString?_hex hex₁, takeString?_hex hex₂, takeString?_hex hex₃,
      takeString?_hex hex₄, ih]
    simp

theorem takeText_body (h : StringBody body) :
    takeText (body ++ Bytes.quote :: rest) = (ofBody body, rest) := by
  simp [takeText, takeString?_body h]

section

variable (hrest : Ends rest)

include hrest

theorem takeNumber_append {s : Bytes} (hs : ∀ c ∈ s, isNumeral c = true) :
    takeNumber b (s ++ rest) = (⟨.number, b :: s⟩, rest) := by
  have htake : ∀ c ∈ s, (!endsNumber c) = true := by
    intro c hc
    simp [endsNumber_of_isNumeral (hs c hc)]
  rw [takeNumber, List.span_eq_takeWhile_dropWhile, List.takeWhile_append_of_pos htake,
    List.dropWhile_append_of_pos htake]
  cases rest with
  | nil => simp
  | cons c rest =>
    have hc := hrest c rfl
    have hend : endsNumber c = true := by grind [isFollower, isBlank, endsNumber]
    simp [hend]

theorem takeWord_append {shape : Shape} {s : Bytes} (hs : s.all Bytes.isLower = true) :
    takeWord shape b (s ++ rest) = (⟨shape, b :: s⟩, rest) := by
  have htake : ∀ c ∈ s, Bytes.isLower c = true := by simpa using hs
  rw [takeWord, List.span_eq_takeWhile_dropWhile, List.takeWhile_append_of_pos htake,
    List.dropWhile_append_of_pos htake]
  cases rest with
  | nil => simp
  | cons c rest =>
    have hc := hrest c rfl
    have hend : Bytes.isLower c = false := by grind [isFollower, isBlank, Bytes.isLower]
    simp [hend]

end

theorem ofText_container {s : Bytes} (hb : startsContainer b = true) :
    ofText (b :: s) = ⟨.nested, b :: s⟩ := by
  have hspace : ¬ b ≤ 0x20 := by grind [startsContainer]
  simp [ofText, hspace, hb]

theorem ofText_plain {s t : Bytes} {value : Glimpse} (hspace : ¬ b ≤ 0x20)
    (hb : startsContainer b = false) (hquote : b ≠ Bytes.quote)
    (h : takePlain? b s = some (value, t)) : ofText (b :: s) = value := by
  simp [ofText, hspace, hb, hquote, h]

theorem takePlain?_word {s : Bytes} (h : b :: s ∈ words) :
    ∃ shape, ∀ rest, takePlain? b (s ++ rest) = some (takeWord shape b (s ++ rest)) := by
  simp only [words, List.mem_cons, List.not_mem_nil, or_false] at h
  rcases h with h | h | h
  · have hw : Bytes.ofString "null" = 0x6E :: Bytes.ofString "ull" := by decide
    obtain ⟨rfl, rfl⟩ := List.cons.inj (h.trans hw)
    exact ⟨.null, fun rest => rfl⟩
  · have hw : Bytes.ofString "true" = 0x74 :: Bytes.ofString "rue" := by decide
    obtain ⟨rfl, rfl⟩ := List.cons.inj (h.trans hw)
    exact ⟨.bool true, fun rest => rfl⟩
  · have hw : Bytes.ofString "false" = 0x66 :: Bytes.ofString "alse" := by decide
    obtain ⟨rfl, rfl⟩ := List.cons.inj (h.trans hw)
    exact ⟨.bool false, fun rest => rfl⟩

/-- A value text that is no string is read to its end. -/
theorem takePlain?_value {s : Bytes} (hv : ValueText (b :: s)) (hb : b ≠ Bytes.quote) :
    ∃ shape, ofText (b :: s) = ⟨shape, b :: s⟩ ∧
      ∀ rest, Ends rest → takePlain? b (s ++ rest) = some (⟨shape, b :: s⟩, rest) := by
  generalize hvs : b :: s = v at hv
  cases hv with
  | string h =>
    cases hvs
    exact absurd rfl hb
  | container hb h =>
    cases hvs
    refine ⟨.nested, ofText_container hb, fun rest _ => ?_⟩
    simp [takePlain?, hb, takeContainer, h]
  | number hb h =>
    cases hvs
    have hcontainer : startsContainer b = false := by
      rcases hb with rfl | hb
      · rfl
      · grind [Bytes.isDigit, startsContainer]
    have hspace : ¬ b ≤ 0x20 := by
      rcases hb with rfl | hb
      · decide
      · grind [Bytes.isDigit]
    have hnumber : startsNumber b = true := by
      rcases hb with rfl | hb
      · rfl
      · simp [startsNumber, hb]
    have htake : ∀ rest, takePlain? b rest = some (takeNumber b rest) := by
      intro rest
      simp [takePlain?, hcontainer, hnumber]
    refine ⟨.number, ?_, fun rest hrest => by rw [htake, takeNumber_append hrest h]⟩
    have hs : takeNumber b (s ++ []) = _ := takeNumber_append ends_nil h
    rw [List.append_nil] at hs
    exact ofText_plain hspace hcontainer ‹_› ((htake s).trans (congrArg some hs))
  | word h =>
    subst hvs
    obtain ⟨shape, htake⟩ := takePlain?_word h
    have hlower : (b :: s).all Bytes.isLower = true := by
      have hwords : ∀ w ∈ words, w.all Bytes.isLower = true := by decide
      exact hwords (b :: s) h
    simp only [List.all_cons, Bool.and_eq_true] at hlower
    have hcontainer : startsContainer b = false := by grind [Bytes.isLower, startsContainer]
    have hspace : ¬ b ≤ 0x20 := by grind [Bytes.isLower]
    refine ⟨shape, ?_, fun rest hrest => by rw [htake, takeWord_append hrest hlower.2]⟩
    have hs := htake []
    rw [takeWord_append ends_nil hlower.2, List.append_nil] at hs
    exact ofText_plain hspace hcontainer hb hs

theorem ofText_string (h : StringBody body) :
    ofText (Bytes.quote :: (body ++ [Bytes.quote])) = ofBody body := by
  have hspace : ¬ Bytes.quote ≤ 0x20 := by decide
  have hcontainer : startsContainer Bytes.quote = false := rfl
  simp [ofText, hspace, hcontainer, takeText_body h]

/-- The reader finds the value text that stands next, and stops after it. -/
theorem nextValue?_value (hv : ValueText v) (hrest : Follows rest) :
    nextValue? (v ++ rest) = some (ofText v, rest) := by
  rcases hv.string_or_plain with ⟨body, hbody, rfl⟩ | ⟨b, s, rfl, hb⟩
  · simp [nextValue?, takeString?_body hbody, ofText_string hbody]
  · obtain ⟨shape, hshape, htake⟩ := takePlain?_value hv hb
    simp [nextValue?, hb, htake rest hrest.ends, hshape]

theorem ofText_raw (hv : ValueText v) : (ofText v).raw = v := by
  rcases hv.string_or_plain with ⟨body, hbody, rfl⟩ | ⟨b, s, rfl, hb⟩
  · simp [ofText_string hbody, ofBody]
  · obtain ⟨shape, hshape, -⟩ := takePlain?_value hv hb
    rw [hshape]

end Glimpse

end Json

end ScanTriage
