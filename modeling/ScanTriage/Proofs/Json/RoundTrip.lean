import ScanTriage.Proofs.Json.Written

/-!
# Reading what was written

The strict reader gives back every written value, with the stray bytes of its
texts replaced (`read?_write`). A written value is read in no more turns than it
has bytes, and at most as deep as its containers stand in one another.
-/

namespace ScanTriage

namespace Json

mutual

/-- A value with every stray byte of its texts replaced by U+FFFD. -/
def scrubbed : Json → Json
  | null => null
  | bool b => bool b
  | number text => number text
  | string s => string (Utf8.scrub s)
  | array items => array (scrubbedItems items)
  | object members => object (scrubbedMembers members)

def scrubbedItems : List Json → List Json
  | [] => []
  | item :: items => scrubbed item :: scrubbedItems items

def scrubbedMembers : List (Bytes × Json) → List (Bytes × Json)
  | [] => []
  | (name, value) :: members => (Utf8.scrub name, scrubbed value) :: scrubbedMembers members

end

theorem scrubbedItems_eq (items : List Json) : scrubbedItems items = items.map scrubbed := by
  induction items with
  | nil => rfl
  | cons item items ih => rw [scrubbedItems, ih, List.map_cons]

theorem scrubbedMembers_eq (members : List (Bytes × Json)) :
    scrubbedMembers members = members.map fun m => (Utf8.scrub m.1, scrubbed m.2) := by
  induction members with
  | nil => rfl
  | cons m members ih => rw [scrubbedMembers, ih, List.map_cons]

/-! ## Numbers -/

variable {t : Bytes}

theorem isDigit_of_isFollower {b : UInt8} (hb : isFollower b = true) : Bytes.isDigit b = false := by
  grind [isFollower, isBlank, Bytes.isDigit]

theorem readDigits?_append {s : Bytes} (hs : ∀ b ∈ s, Bytes.isDigit b = true) (hne : s ≠ [])
    (ht : Ends t) : readDigits? (s ++ t) = some (s, t) := by
  have hspan : (s ++ t).span Bytes.isDigit = (s, t) := by
    rw [List.span_eq_takeWhile_dropWhile, List.takeWhile_append_of_pos hs,
      List.dropWhile_append_of_pos hs]
    cases t with
    | nil => simp
    | cons b t => simp [isDigit_of_isFollower (ht b rfl)]
  have hempty : s.isEmpty = false := by simpa using hne
  simp only [readDigits?, hspan, hempty, Bool.false_eq_true, if_false]

/-- Neither a point nor an exponent stands at the end of a number. -/
theorem readFraction?_ends (ht : Ends t) : readFraction? t = some ([], t) := by
  unfold readFraction?
  split
  · next rest => exact absurd (ht Bytes.dot rfl) (by decide)
  · rfl

theorem readExponent?_ends (ht : Ends t) : readExponent? t = some ([], t) := by
  cases t with
  | nil => rfl
  | cons b t =>
    have hb := ht b rfl
    have hmark : (b == 0x65 || b == 0x45) = false := by grind [isFollower, isBlank]
    simp only [readExponent?, hmark, Bool.false_eq_true, if_false]

theorem readWhole?_decimal (k : Nat) (ht : Ends t) :
    readWhole? (Bytes.decimal k ++ t) = some (Bytes.decimal k, t) := by
  rcases Nat.eq_zero_or_pos k with rfl | hk
  · rw [Bytes.decimal_zero]
    rfl
  · obtain ⟨b, s, hs, -, hb⟩ := Bytes.decimal_head hk
    have hread := readDigits?_append (Bytes.isDigit_decimal k) (Bytes.decimal_ne_nil k) ht
    rw [hs] at hread ⊢
    unfold readWhole?
    split
    · next heq => exact absurd (List.cons.inj heq).1 hb
    · exact hread

theorem readSign_digits {s : Bytes} (hs : ∀ b ∈ s, Bytes.isDigit b = true) (ht : Ends t) :
    readSign (s ++ t) = ([], s ++ t) := by
  unfold readSign
  split
  · next heq =>
    cases s with
    | nil => exact absurd (ht Bytes.minus (by rw [← List.nil_append t, heq]; rfl)) (by decide)
    | cons b s =>
      have hb := hs b (List.mem_cons_self ..)
      rw [(List.cons.inj heq).1] at hb
      exact absurd hb (by decide)
  · rfl

theorem readNumber_decimalInt64 (n : Int64) (ht : Ends t) :
    readNumber (Bytes.decimalInt64 n ++ t) = some (Bytes.decimalInt64 n, t) := by
  rcases Integer.decimalInt64_cases n with ⟨k, -, -, hn⟩ | ⟨k, -, -, -, hn⟩ <;> rw [hn, readNumber]
  · rw [readSign_digits (Bytes.isDigit_decimal k) ht]
    simp [readWhole?_decimal k ht, readFraction?_ends ht, readExponent?_ends ht]
  · have hsign : readSign (Bytes.minus :: Bytes.decimal k ++ t) =
        ([Bytes.minus], Bytes.decimal k ++ t) := rfl
    rw [hsign]
    simp [readWhole?_decimal k ht, readFraction?_ends ht, readExponent?_ends ht]

/-! ## Values -/

variable {html : Bool} {fuel depth : Nat}

/-- The value is read back wherever it stands at `depth`, in no more turns than
it has bytes. -/
def ReadsBack (html : Bool) (depth : Nat) (j : Json) : Prop :=
  ∀ fuel t, Ends t → (write html j).length ≤ fuel →
    readValue fuel depth (write html j ++ t) = some (scrubbed j, t)

theorem readValue_number {b : UInt8} {s : Bytes} (hb : b = Bytes.minus ∨ Bytes.isDigit b = true) :
    readValue (fuel + 1) depth (b :: s) =
      (readNumber (b :: s)).map fun (text, rest) => (number text, rest) := by
  have hblank : isBlank b = false := by grind [Bytes.isDigit, isBlank]
  have hother : b ≠ Bytes.quote ∧ b ≠ Bytes.openBracket ∧ b ≠ Bytes.openBrace ∧ b ≠ 0x6E ∧
      b ≠ 0x74 ∧ b ≠ 0x66 := by
    refine ⟨?_, ?_, ?_, ?_, ?_, ?_⟩ <;> rintro rfl <;> exact absurd hb (by decide)
  have hskip : skipBlank (b :: s) = b :: s := List.dropWhile_cons_of_neg (by simp [hblank])
  simp [readValue, hskip, hother]

theorem readValue_int (n : Int64) (ht : Ends t) :
    readValue (fuel + 1) depth (Bytes.decimalInt64 n ++ t) = some (int n, t) := by
  have hhead : ∃ b s, Bytes.decimalInt64 n = b :: s ∧
      (b = Bytes.minus ∨ Bytes.isDigit b = true) := by
    rcases Integer.decimalInt64_cases n with ⟨k, -, -, hn⟩ | ⟨k, -, -, -, hn⟩
    · obtain ⟨b, s, hs⟩ := List.exists_cons_of_ne_nil (Bytes.decimal_ne_nil k)
      exact ⟨b, s, hn.trans hs, .inr (Bytes.isDigit_decimal k b (by simp [hs]))⟩
    · exact ⟨_, _, hn, .inl rfl⟩
  obtain ⟨b, s, hs, hb⟩ := hhead
  have hnumber := readNumber_decimalInt64 n ht
  rw [int, hs] at *
  rw [List.cons_append] at hnumber ⊢
  rw [readValue_number hb, hnumber]
  rfl

theorem readValue_string (s : Bytes) :
    readValue (fuel + 1) depth (writeString html s ++ t) = some (string (Utf8.scrub s), t) := by
  have hread : readValue (fuel + 1) depth (Bytes.quote :: (stringBody html s ++ Bytes.quote :: t)) =
      (readString (stringBody html s ++ Bytes.quote :: t)).bind fun (text, rest) =>
        some (string text, rest) := rfl
  rw [writeString_eq, List.cons_append, List.append_assoc, List.singleton_append, hread,
    readString_stringBody]
  rfl

theorem skipBlank_value {v : Bytes} (hv : IsValue v) : skipBlank (v ++ t) = v ++ t := by
  obtain ⟨b, s, rfl, -, hb⟩ := hv.text.exists_cons
  exact List.dropWhile_cons_of_neg (by simp [hb])

theorem readItems_last {item : Json} {s : Bytes} {acc : List Json}
    (h : readValue fuel depth s = some (item, Bytes.closeBracket :: t)) :
    readItems (fuel + 1) depth s acc = some (array (acc.reverse ++ [item]), t) := by
  rw [readItems, h, ← List.reverse_cons]
  rfl

theorem readItems_more {item : Json} {s : Bytes} {acc : List Json}
    (h : readValue fuel depth s = some (item, Bytes.comma :: t)) :
    readItems (fuel + 1) depth s acc = readItems fuel depth t (item :: acc) := by
  rw [readItems, h]
  rfl

theorem readItems_written {items : List Json} {acc : List Json}
    (hread : ∀ item ∈ items, ReadsBack html depth item) (hne : items ≠ [])
    (hfuel : (separated (items.map (write html))).length < fuel) :
    readItems fuel depth (separated (items.map (write html)) ++ Bytes.closeBracket :: t) acc =
      some (array (acc.reverse ++ items.map scrubbed), t) := by
  induction items generalizing fuel acc with
  | nil => exact absurd rfl hne
  | cons item items ih =>
    obtain ⟨hitem, hitems⟩ := List.forall_mem_cons.mp hread
    obtain ⟨fuel, rfl⟩ : ∃ n, fuel = n + 1 := ⟨fuel - 1, by omega⟩
    cases items with
    | nil =>
      simp only [List.map_cons, List.map_nil, separated, List.flatMap_nil, List.append_nil]
        at hfuel ⊢
      exact readItems_last (hitem fuel _ (ends_cons rfl) (by omega))
    | cons item' items =>
      simp only [List.map_cons, separated_cons_cons, List.length_append, List.length_cons] at hfuel
      simp only [List.map_cons, separated_cons_cons, List.append_assoc, List.cons_append]
      rw [readItems_more (hitem fuel _ (ends_cons rfl) (by omega)), ← List.map_cons,
        ih hitems (by simp) (by rw [List.map_cons]; omega)]
      simp

theorem readMembers_member {name : Bytes} {value : Json} {s s' s'' : Bytes}
    {acc : List (Bytes × Json)} {x : Option (Json × Bytes)}
    (hname : readString s = some (name, Bytes.colon :: s'))
    (hvalue : readValue fuel depth s' = some (value, s''))
    (hend : (match skipBlank s'' with
      | Bytes.comma :: rest => readMembers fuel depth rest ((name, value) :: acc)
      | Bytes.closeBrace :: rest => some (object ((name, value) :: acc).reverse, rest)
      | _ => none) = x) :
    readMembers (fuel + 1) depth (Bytes.quote :: s) acc = x := by
  have hquote : skipBlank (Bytes.quote :: s) = Bytes.quote :: s := rfl
  have hcolon : skipBlank (Bytes.colon :: s') = Bytes.colon :: s' := rfl
  rw [readMembers, hquote]
  split
  · next rest heq =>
    obtain rfl := (List.cons.inj heq).2
    simp only [hname, hcolon]
    split
    · next rest heq =>
      obtain rfl := (List.cons.inj heq).2
      simp only [hvalue]
      exact hend
    · next hne => exact absurd rfl (hne s')
  · next hne => exact absurd rfl (hne s)

theorem readMembers_written {members : List (Bytes × Json)} {acc : List (Bytes × Json)}
    (hread : ∀ m ∈ members, ReadsBack html depth m.2) (hne : members ≠ [])
    (hfuel : (separated (members.map (writeMember html))).length < fuel) :
    readMembers fuel depth
        (separated (members.map (writeMember html)) ++ Bytes.closeBrace :: t) acc =
      some (object (acc.reverse ++ members.map fun m => (Utf8.scrub m.1, scrubbed m.2)), t) := by
  induction members generalizing fuel acc with
  | nil => exact absurd rfl hne
  | cons m members ih =>
    obtain ⟨hm, hmembers⟩ := List.forall_mem_cons.mp hread
    obtain ⟨fuel, rfl⟩ : ∃ n, fuel = n + 1 := ⟨fuel - 1, by omega⟩
    have hlen : (writeMember html m).length = (writeString html m.1).length + 1 +
        (write html m.2).length := by
      simp only [writeMember, List.length_append, List.length_cons]
      omega
    have htext : ∀ s, writeMember html m ++ s = Bytes.quote :: (stringBody html m.1 ++
        Bytes.quote :: (Bytes.colon :: (write html m.2 ++ s))) := by
      simp [writeMember, writeString_eq]
    cases members with
    | nil =>
      simp only [List.map_cons, List.map_nil, separated, List.flatMap_nil, List.append_nil]
        at hfuel ⊢
      rw [htext, ← List.reverse_cons]
      exact readMembers_member (readString_stringBody ..) (hm fuel _ (ends_cons rfl) (by omega)) rfl
    | cons m' members =>
      simp only [List.map_cons, separated_cons_cons, List.length_append, List.length_cons] at hfuel
      simp only [List.map_cons, separated_cons_cons, List.append_assoc, List.cons_append]
      have hfuel' : (separated ((m' :: members).map (writeMember html))).length < fuel := by
        rw [List.map_cons]
        omega
      rw [htext]
      refine readMembers_member (readString_stringBody ..) (hm fuel _ (ends_cons rfl) (by omega)) ?_
      refine (ih hmembers (by simp) hfuel').trans ?_
      simp

theorem readValue_items {s : Bytes} (hdepth : depth < maxDepth) (hs : skipBlank s = s)
    (hclose : s.head? ≠ some Bytes.closeBracket) :
    readValue (fuel + 1) depth (Bytes.openBracket :: s) = readItems fuel (depth + 1) s [] := by
  have hopen : skipBlank (Bytes.openBracket :: s) = Bytes.openBracket :: s := rfl
  rw [readValue, hopen]
  dsimp only
  rw [if_neg (by decide), if_pos (by decide), if_neg (by omega), hs]
  split
  · exact absurd rfl hclose
  · rfl

theorem readValue_members {s : Bytes} (hdepth : depth < maxDepth) :
    readValue (fuel + 1) depth (Bytes.openBrace :: Bytes.quote :: s) =
      readMembers fuel (depth + 1) (Bytes.quote :: s) [] := by
  have hread : readValue (fuel + 1) depth (Bytes.openBrace :: Bytes.quote :: s) =
      if maxDepth ≤ depth then none else readMembers fuel (depth + 1) (Bytes.quote :: s) [] := rfl
  rw [hread, if_neg (by omega)]

theorem exists_succ {v : Bytes} (hv : IsValue v) (hfuel : v.length ≤ fuel) : ∃ n, fuel = n + 1 := by
  obtain ⟨b, s, rfl, -⟩ := hv.text.exists_cons
  rw [List.length_cons] at hfuel
  exact ⟨fuel - 1, by omega⟩

theorem readsBack_array {items : List Json} (hdepth : depth < maxDepth)
    (hvalues : ∀ item ∈ items, IsValue (write html item))
    (hread : ∀ item ∈ items, ReadsBack html (depth + 1) item) :
    ReadsBack html depth (array items) := by
  intro fuel t ht hfuel
  rw [write_array, arrayText] at hfuel ⊢
  rw [scrubbed, scrubbedItems_eq]
  simp only [List.length_cons, List.length_append, List.length_nil] at hfuel
  obtain ⟨fuel, rfl⟩ : ∃ n, fuel = n + 1 := ⟨fuel - 1, by omega⟩
  simp only [List.cons_append, List.append_assoc, List.nil_append]
  cases items with
  | nil =>
    have hread : readValue (fuel + 1) depth (Bytes.openBracket :: Bytes.closeBracket :: t) =
        if maxDepth ≤ depth then none else some (array [], t) := rfl
    exact hread.trans (if_neg (by omega))
  | cons item items =>
    have hitem := hvalues item (List.mem_cons_self ..)
    obtain ⟨b, s, hbs, -⟩ := hitem.text.exists_cons
    have hskip : skipBlank (separated ((item :: items).map (write html)) ++
        Bytes.closeBracket :: t) =
          separated ((item :: items).map (write html)) ++ Bytes.closeBracket :: t := by
      rw [List.map_cons, separated, List.append_assoc, skipBlank_value hitem]
    rw [readValue_items hdepth hskip, readItems_written hread (by simp) (by omega)]
    · rfl
    · rw [List.map_cons, separated, hbs]
      rw [hbs] at hitem
      simpa using hitem.ne_closeBracket

theorem readsBack_object {members : List (Bytes × Json)} (hdepth : depth < maxDepth)
    (hread : ∀ m ∈ members, ReadsBack html (depth + 1) m.2) :
    ReadsBack html depth (object members) := by
  intro fuel t ht hfuel
  rw [write, writeMembers_eq] at hfuel ⊢
  rw [scrubbed, scrubbedMembers_eq]
  simp only [List.length_cons, List.length_append, List.length_nil] at hfuel
  obtain ⟨fuel, rfl⟩ : ∃ n, fuel = n + 1 := ⟨fuel - 1, by omega⟩
  simp only [List.cons_append, List.append_assoc, List.nil_append]
  cases members with
  | nil =>
    have hread : readValue (fuel + 1) depth (Bytes.openBrace :: Bytes.closeBrace :: t) =
        if maxDepth ≤ depth then none else some (object [], t) := rfl
    exact hread.trans (if_neg (by omega))
  | cons m members =>
    have hquote : ∃ s, separated ((m :: members).map (writeMember html)) ++ Bytes.closeBrace :: t =
        Bytes.quote :: s := ⟨_, rfl⟩
    obtain ⟨s, hs⟩ := hquote
    rw [hs, readValue_members hdepth, ← hs, readMembers_written hread (by simp) (by omega)]
    rfl

/-- Every written value is read back where it is not too deep. -/
theorem Fits.readsBack {j : Json} {left : Nat} (h : Fits left j)
    (hdepth : depth + left ≤ maxDepth) : ReadsBack html depth j := by
  induction h generalizing depth with
  | null =>
    intro fuel t ht hfuel
    obtain ⟨fuel, rfl⟩ := exists_succ ((@Fits.null 0).isValue_write html) hfuel
    rfl
  | bool b =>
    intro fuel t ht hfuel
    obtain ⟨fuel, rfl⟩ := exists_succ ((@Fits.bool 0 b).isValue_write html) hfuel
    cases b <;> rfl
  | int n =>
    intro fuel t ht hfuel
    obtain ⟨fuel, rfl⟩ := exists_succ ((@Fits.int 0 n).isValue_write html) hfuel
    exact readValue_int n ht
  | string s =>
    intro fuel t ht hfuel
    obtain ⟨fuel, rfl⟩ := exists_succ ((@Fits.string 0 s).isValue_write html) hfuel
    exact readValue_string s
  | array h ih =>
    exact readsBack_array (by omega) (fun item hitem => (h item hitem).isValue_write html)
      fun item hitem => ih item hitem (by omega)
  | object h ih => exact readsBack_object (by omega) fun m hm => ih m hm (by omega)

/-- The strict reader gives back what was written, with its texts scrubbed. -/
theorem read?_write {j : Json} {left : Nat} (h : Fits left j) (hleft : left ≤ maxDepth) :
    read? (write html j) = some (scrubbed j) := by
  have hback : ReadsBack html 0 j := h.readsBack (by omega)
  have hread := hback (2 * (write html j).length + 2) [] ends_nil (by omega)
  rw [List.append_nil] at hread
  rw [read?, hread]
  rfl

end Json

end ScanTriage
