import ScanTriage.Proofs.Json.Document

/-!
# Arrays as written

An `ArrayText` is the text of an array taken apart: its items and all the white
space. Every valid text that starts with a bracket is such a text
(`exists_arrayText`), every such text is valid (`ArrayText.isValid_text`), and the
tolerant reader finds exactly its items (`ArrayText.elements_text`).
-/

namespace ScanTriage

namespace Json

theorem IsValue.ne_closeBracket {b : UInt8} {s : Bytes} (hv : IsValue (b :: s)) :
    b ≠ Bytes.closeBracket := by
  rintro rfl
  obtain ⟨fin, hrun, -⟩ := isValid_iff.mp hv.valid
  cases hrun

structure ItemText where
  before : Bytes
  value : Bytes
  after : Bytes
  before_blank : Blank before
  isValue : IsValue value
  after_blank : Blank after

def ItemText.text (i : ItemText) : Bytes := i.before ++ (i.value ++ i.after)

/-- An array as written; `inner` is what stands between the brackets of an array
without items. -/
structure ArrayText where
  front : Bytes
  inner : Bytes
  items : List ItemText
  back : Bytes
  front_blank : Blank front
  inner_blank : Blank inner
  back_blank : Blank back

namespace ArrayText

def tail (items : List ItemText) (back : Bytes) : Bytes :=
  items.flatMap (fun i => Bytes.comma :: i.text) ++ Bytes.closeBracket :: back

def inside (inner : Bytes) (items : List ItemText) (back : Bytes) : Bytes :=
  match items with
  | [] => inner ++ Bytes.closeBracket :: back
  | i :: items => i.text ++ tail items back

def text (d : ArrayText) : Bytes :=
  d.front ++ Bytes.openBracket :: inside d.inner d.items d.back

@[simp] theorem tail_nil (back : Bytes) : tail [] back = Bytes.closeBracket :: back := rfl

@[simp] theorem tail_cons (i : ItemText) (is : List ItemText) (back : Bytes) :
    tail (i :: is) back = Bytes.comma :: (i.text ++ tail is back) := by
  simp [tail]

theorem follows_tail (is : List ItemText) (back : Bytes) : Follows (tail is back) := by
  cases is with
  | nil => exact ⟨_, _, rfl, rfl⟩
  | cons i is => exact ⟨_, _, tail_cons i is back, rfl⟩

/-! ## Array texts are valid -/

theorem run?_item {e : Expecting} (he : e = .firstItem ∨ e = .value) (i : ItemText)
    {o : List Container} {t : Bytes} (ht : Follows t) :
    ScanState.run? ⟨e, o⟩ (i.text ++ t) = ScanState.run? ⟨.next, o⟩ t := by
  obtain ⟨b, s, hs, -, hblank⟩ := i.isValue.text.exists_cons
  have hclose : b ≠ Bytes.closeBracket := (hs ▸ i.isValue).ne_closeBracket
  have hskips : e.skipsBlank = true := by rcases he with rfl | rfl <;> rfl
  -- From its first byte on, a first item is like any other.
  have hstep : ScanState.step? ⟨e, o⟩ b = ScanState.step? ⟨.value, o⟩ b := by
    rcases he with rfl | rfl
    · simp [ScanState.step?, hclose, hblank]
    · rfl
  have hfirst : ScanState.run? ⟨e, o⟩ (i.value ++ (i.after ++ t)) =
      ScanState.run? ⟨.value, o⟩ (i.value ++ (i.after ++ t)) := by
    rw [hs, List.cons_append, ScanState.run?_cons, ScanState.run?_cons, hstep]
  simp only [ItemText.text, List.append_assoc]
  rw [ScanState.run?_blank hskips i.before_blank, hfirst,
    ScanState.run?_value i.isValue.valid (ht.append_left i.after_blank),
    ScanState.run?_blank rfl i.after_blank]

theorem run?_tail (is : List ItemText) {back : Bytes} (hback : Blank back)
    {o : List Container} :
    ScanState.run? ⟨.next, .array :: o⟩ (tail is back) = some ⟨.next, o⟩ := by
  induction is with
  | nil =>
    have hclose : ScanState.step? ⟨.next, .array :: o⟩ Bytes.closeBracket = some ⟨.next, o⟩ := rfl
    rw [tail_nil, ScanState.run?_cons_of_step hclose, ScanState.run?_blank_end rfl hback]
  | cons i is ih =>
    have hcomma : ScanState.step? ⟨.next, .array :: o⟩ Bytes.comma =
        some ⟨.value, .array :: o⟩ := rfl
    rw [tail_cons, ScanState.run?_cons_of_step hcomma,
      run?_item (.inr rfl) i (follows_tail is back), ih]

theorem isValid_text (d : ArrayText) : isValid d.text = true := by
  refine isValid_iff.mpr ⟨⟨.next, []⟩, ?_, rfl⟩
  have hopen : ScanState.step? ⟨.value, []⟩ Bytes.openBracket = some ⟨.firstItem, [.array]⟩ := rfl
  rw [text, ScanState.start, ScanState.run?_blank rfl d.front_blank,
    ScanState.run?_cons_of_step hopen]
  cases d.items with
  | nil =>
    have hclose : ScanState.step? ⟨.firstItem, [.array]⟩ Bytes.closeBracket =
        some ⟨.next, []⟩ := rfl
    rw [inside, ScanState.run?_blank rfl d.inner_blank, ScanState.run?_cons_of_step hclose,
      ScanState.run?_blank_end rfl d.back_blank]
  | cons i is =>
    rw [inside, run?_item (.inl rfl) i (follows_tail is d.back), run?_tail is d.back_blank]

/-! ## Every valid array has an array text -/

variable {fin : ScanState} {t : Bytes}

theorem run?_next_split (h : ScanState.run? ⟨.next, [.array]⟩ t = some fin)
    (hfin : fin.isComplete = true) :
    ∃ (ws : Bytes) (is : List ItemText) (back : Bytes), Blank ws ∧ Blank back ∧
      t = ws ++ tail is back := by
  induction hn : t.length using Nat.strong_induction_on generalizing t with
  | _ n ih =>
  obtain ⟨ws, b, t, st, rfl, hws, hb, hstep, hrun⟩ := ScanState.exists_token rfl h hfin rfl
  simp only [ScanState.step?, ScanState.afterValue?, hb, Bool.false_eq_true, if_false] at hstep
  split at hstep
  · next hcomma =>
    obtain rfl := eq_of_beq hcomma
    obtain rfl := Option.some.inj hstep
    obtain ⟨before, v, rest, rfl, hbefore, hv, -, hrest⟩ :=
      ScanState.run?_value_split (by simp) hrun hfin
    have hlen : rest.length < n := by
      simp only [List.length_append, List.length_cons] at hn
      omega
    obtain ⟨after, is, back, hafter, hback, rfl⟩ := ih rest.length hlen hrest rfl
    refine ⟨ws, ⟨before, v, after, hbefore, hv, hafter⟩ :: is, back, hws, hback, ?_⟩
    simp [ItemText.text]
  split at hstep
  · next hclose =>
    obtain rfl := eq_of_beq hclose
    obtain rfl := Option.some.inj hstep
    exact ⟨ws, [], t, hws, (ScanState.blank_of_run_next hrun).1, rfl⟩
  · cases hstep

theorem run?_firstItem_split (h : ScanState.run? ⟨.firstItem, [.array]⟩ t = some fin)
    (hfin : fin.isComplete = true) :
    ∃ (inner : Bytes) (is : List ItemText) (back : Bytes), Blank inner ∧ Blank back ∧
      t = inside inner is back := by
  obtain ⟨ws, b, t, st, rfl, hws, hb, hstep, hrun⟩ := ScanState.exists_token rfl h hfin rfl
  by_cases hclose : b = Bytes.closeBracket
  · subst hclose
    obtain rfl := Option.some.inj hstep
    exact ⟨ws, [], t, hws, (ScanState.blank_of_run_next hrun).1, rfl⟩
  · -- From its first byte on, a first item is like any other.
    have hvalue : ScanState.step? ⟨.value, [.array]⟩ b = some st := by
      simpa [ScanState.step?, hclose, hb] using hstep
    rw [← ScanState.run?_cons_of_step hvalue, ← ScanState.run?_blank (e := .value) rfl hws] at hrun
    obtain ⟨before, v, rest, heq, hbefore, hv, -, hrest⟩ :=
      ScanState.run?_value_split (by simp) hrun hfin
    obtain ⟨after, is, back, hafter, hback, rfl⟩ := run?_next_split hrest hfin
    refine ⟨[], ⟨before, v, after, hbefore, hv, hafter⟩ :: is, back, Blank.nil, hback, ?_⟩
    rw [heq]
    simp [inside, ItemText.text]

end ArrayText

/-- A valid text whose first byte, after white space, is a bracket is the text
of an array. -/
theorem exists_arrayText {s : Bytes} (hs : isValid s = true)
    (hopen : (skipBlank s).head? = some Bytes.openBracket) : ∃ d : ArrayText, d.text = s := by
  obtain ⟨fin, hrun, hfin⟩ := isValid_iff.mp hs
  obtain ⟨t, ht⟩ := List.head?_eq_some_iff.mp hopen
  obtain ⟨front, hfront, rfl⟩ : ∃ front, Blank front ∧ s = front ++ Bytes.openBracket :: t :=
    ⟨s.takeWhile isBlank, blank_takeWhile s,
      by rw [← ht, skipBlank, List.takeWhile_append_dropWhile]⟩
  have hstep : ScanState.step? ⟨.value, []⟩ Bytes.openBracket = some ⟨.firstItem, [.array]⟩ := rfl
  rw [ScanState.start, ScanState.run?_blank rfl hfront, ScanState.run?_cons_of_step hstep] at hrun
  obtain ⟨inner, items, back, hinner, hback, rfl⟩ := ArrayText.run?_firstItem_split hrun hfin
  exact ⟨⟨front, inner, items, back, hfront, hinner, hback⟩, rfl⟩

/-! ## What the tolerant reader finds -/

namespace Glimpse

variable {fuel : Nat} {acc : List Glimpse} {b : UInt8} {s t : Bytes}

theorem elementsOnto_plain {value : Glimpse}
    (hb : (startsContainer b || Bytes.isDigit b || b == Bytes.minus || b == 0x74 ||
      b == 0x66) = true)
    (h : takePlain? b s = some (value, t)) :
    elementsOnto (fuel + 1) acc (b :: s) = elementsOnto fuel (value :: acc) t := by
  have hother : b ≠ Bytes.closeBracket ∧ b ≠ Bytes.closeBrace ∧ b ≠ Bytes.quote ∧ b ≠ 0x6E := by
    refine ⟨?_, ?_, ?_, ?_⟩ <;> rintro rfl <;> exact absurd hb (by decide)
  simp only [elementsOnto, beq_iff_eq, hother, Bool.or_eq_true, or_self, if_false, h]
  simp only [Bool.or_eq_true, beq_iff_eq] at hb
  rw [if_pos hb]

/-- The tolerant reader takes one value text after the other. -/
theorem elementsOnto_value {v : Bytes} (hv : ValueText v) (ht : Follows t) :
    elementsOnto (fuel + 1) acc (v ++ t) = elementsOnto fuel (ofText v :: acc) t := by
  have hplain : ∀ b s, ValueText (b :: s) → b ≠ Bytes.quote →
      takePlain? b (s ++ t) = some (ofText (b :: s), t) := by
    intro b s hv hb
    obtain ⟨shape, hshape, htake⟩ := takePlain?_value hv hb
    rw [hshape, htake t ht.ends]
  have hcopy := hv
  cases hv with
  | @string body h =>
    have htext : takeText (body ++ Bytes.quote :: t) = (ofBody body, t) := takeText_body h
    rw [ofText_string h, List.cons_append, List.append_assoc, List.singleton_append]
    simp only [elementsOnto, htext]
    rfl
  | @container b s hb h =>
    have hquote : b ≠ Bytes.quote := by rintro rfl; exact absurd hb (by decide)
    exact elementsOnto_plain (by simp [hb]) (hplain b s hcopy hquote)
  | @number b s hb h =>
    have hquote : b ≠ Bytes.quote := by rintro rfl; exact absurd hb (by decide)
    exact elementsOnto_plain (by rcases hb with rfl | hb <;> simp_all) (hplain b s hcopy hquote)
  | word h =>
    simp only [words, List.mem_cons, List.not_mem_nil, or_false] at h
    rcases h with rfl | rfl | rfl
    · have hnull : Bytes.ofString "null" = 0x6E :: Bytes.ofString "ull" := by decide
      have hword : takeWord .null 0x6E (Bytes.ofString "ull" ++ t) =
          (⟨.null, 0x6E :: Bytes.ofString "ull"⟩, t) := takeWord_append ht.ends (by decide)
      have hvalue : ofText (Bytes.ofString "null") = ⟨.null, Bytes.ofString "null"⟩ := by decide
      rw [hvalue, hnull, List.cons_append]
      simp only [elementsOnto, hword]
      rfl
    · exact elementsOnto_plain rfl (hplain _ _ hcopy (by decide))
    · exact elementsOnto_plain rfl (hplain _ _ hcopy (by decide))

theorem ofText_blank {ws : Bytes} (hws : Blank ws) (s : Bytes) : ofText (ws ++ s) = ofText s := by
  have hlow : ∀ b ∈ ws, decide (b ≤ 0x20) = true := by
    intro b hb
    have hb := hws b hb
    simp only [isBlank_iff, List.mem_cons, List.not_mem_nil, or_false] at hb
    rcases hb with rfl | rfl | rfl | rfl <;> rfl
  rw [ofText, List.dropWhile_append_of_pos hlow, ofText]

end Glimpse

namespace ArrayText

open Glimpse (elementsOnto ofText)

variable {fuel : Nat} {acc : List Glimpse} {ws t : Bytes}

theorem elementsOnto_blank (hws : Blank ws) :
    elementsOnto (fuel + ws.length) acc (ws ++ t) = elementsOnto fuel acc t := by
  induction ws with
  | nil => rfl
  | cons b ws ih =>
    obtain ⟨hb, hws⟩ := List.forall_mem_cons.mp hws
    rw [List.cons_append, List.length_cons, ← Nat.add_assoc]
    refine Eq.trans ?_ (ih hws)
    simp only [isBlank_iff, List.mem_cons, List.not_mem_nil, or_false] at hb
    rcases hb with rfl | rfl | rfl | rfl <;> rfl

/-- The tolerant reader takes an item in no more turns than it has bytes. -/
theorem elementsOnto_item (i : ItemText) (ht : Follows t) (hfuel : i.text.length ≤ fuel) :
    ∃ left, fuel ≤ left + i.text.length ∧
      elementsOnto fuel acc (i.text ++ t) = elementsOnto left (ofText i.value :: acc) t := by
  obtain ⟨b, s, hs, -, -⟩ := i.isValue.text.exists_cons
  have hlen : i.text.length = i.before.length + ((s.length + 1) + i.after.length) := by
    simp only [ItemText.text, hs, List.length_append, List.length_cons]
  refine ⟨fuel - (i.before.length + 1 + i.after.length), by omega, ?_⟩
  obtain ⟨left, rfl⟩ : ∃ left, fuel = left + i.after.length + 1 + i.before.length :=
    ⟨fuel - (i.before.length + 1 + i.after.length), by omega⟩
  have hleft : left + i.after.length + 1 + i.before.length -
      (i.before.length + 1 + i.after.length) = left := by omega
  rw [hleft, ItemText.text, List.append_assoc, List.append_assoc,
    elementsOnto_blank i.before_blank,
    Glimpse.elementsOnto_value i.isValue.text (ht.append_left i.after_blank),
    elementsOnto_blank i.after_blank]

theorem elementsOnto_tail (is : List ItemText) {back : Bytes}
    (hfuel : (tail is back).length ≤ fuel) :
    elementsOnto fuel acc (tail is back) = (is.map fun i => ofText i.value).reverse ++ acc := by
  induction is generalizing fuel acc with
  | nil => cases fuel <;> rfl
  | cons i is ih =>
    rw [tail_cons, List.length_cons, List.length_append] at hfuel
    obtain ⟨fuel, rfl⟩ : ∃ n, fuel = n + 1 := ⟨fuel - 1, by omega⟩
    have hcomma : ∀ s, elementsOnto (fuel + 1) acc (Bytes.comma :: s) = elementsOnto fuel acc s :=
      fun s => rfl
    obtain ⟨left, hleft, hitem⟩ :=
      @elementsOnto_item fuel acc _ i (follows_tail is back) (by omega)
    rw [tail_cons, hcomma, hitem, ih (by omega)]
    simp

theorem length_le_inside (inner : Bytes) (is : List ItemText) (back : Bytes) :
    is.length ≤ (inside inner is back).length := by
  have htail : ∀ is, is.length ≤ (tail is back).length := by
    intro is
    induction is with
    | nil => simp
    | cons i is ih =>
      simp only [tail_cons, List.length_cons, List.length_append]
      omega
  cases is with
  | nil => simp
  | cons i is =>
    obtain ⟨b, s, hs, -, -⟩ := i.isValue.text.exists_cons
    have his := htail is
    simp only [inside, ItemText.text, hs, List.length_cons, List.length_append]
    omega

theorem elementsOnto_inside (inner : Bytes) (is : List ItemText) (back : Bytes)
    (hinner : Blank inner) (hfuel : (inside inner is back).length ≤ fuel) :
    elementsOnto fuel [] (inside inner is back) = (is.map fun i => ofText i.value).reverse := by
  cases is with
  | nil =>
    rw [inside, List.length_append] at hfuel
    obtain ⟨fuel, rfl⟩ : ∃ n, fuel = n + inner.length := ⟨fuel - inner.length, by omega⟩
    rw [inside, elementsOnto_blank hinner]
    cases fuel <;> rfl
  | cons i is =>
    rw [inside, List.length_append] at hfuel
    obtain ⟨left, hleft, hitem⟩ :=
      @elementsOnto_item fuel [] _ i (follows_tail is back) (by omega)
    rw [inside, hitem, elementsOnto_tail is (by omega)]
    simp

/-- The tolerant reader finds the items of an array. -/
theorem elements_text (d : ArrayText) :
    (ofText d.text).elements = d.items.map fun i => ofText i.value := by
  have hread : ofText d.text =
      ⟨.nested, Bytes.openBracket :: inside d.inner d.items d.back⟩ := by
    rw [text, Glimpse.ofText_blank d.front_blank]
    exact Glimpse.ofText_container rfl
  have harray : Glimpse.isArray
    ⟨.nested, Bytes.openBracket :: inside d.inner d.items d.back⟩ = true := rfl
  rw [hread, Glimpse.elements, if_pos harray, List.tail_cons,
    elementsOnto_inside _ _ _ d.inner_blank (by simp), List.reverse_reverse]

end ArrayText

/-- A text is an array of these value texts, in this order. -/
def HasItems (s : Bytes) (items : List Bytes) : Prop :=
  ∃ d : ArrayText, d.text = s ∧ d.items.map ItemText.value = items

/-- A value text that starts with a bracket has items, fewer than it has bytes. -/
theorem exists_hasItems {s : Bytes} (hs : IsValue s) (hopen : s.head? = some Bytes.openBracket) :
    ∃ items, HasItems s items ∧ items.length < s.length := by
  have hskip : skipBlank s = s := by
    obtain ⟨b, t, rfl, -, hb⟩ := hs.text.exists_cons
    exact List.dropWhile_cons_of_neg (by simp [hb])
  obtain ⟨d, rfl⟩ := exists_arrayText hs.valid (by rwa [hskip])
  refine ⟨_, ⟨d, rfl, rfl⟩, ?_⟩
  have hlen := ArrayText.length_le_inside d.inner d.items d.back
  simp only [ArrayText.text, List.length_map, List.length_append, List.length_cons]
  omega

theorem HasItems.elements {s : Bytes} {items : List Bytes} (h : HasItems s items) :
    (Glimpse.ofText s).elements = items.map Glimpse.ofText := by
  obtain ⟨d, rfl, rfl⟩ := h
  rw [d.elements_text, List.map_map]
  rfl

end Json

end ScanTriage
