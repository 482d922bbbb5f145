import ScanTriage.Proofs.Json.Items
import ScanTriage.Proofs.Json.Strings
import ScanTriage.Proofs.Number.Numerals

/-!
# Written values

What `write` gives for a value whose numbers are whole ones is the text of one
value (`Fits.isValue_write`). The tolerant reader finds the members of a written
object (`exists_objectText_write`) and the items of a written array
(`elements_arrayText`).
-/

namespace ScanTriage

namespace Json

variable {html : Bool} {depth : Nat}

/-! ## Leaves -/

theorem IsValue.of_bytes {v : Bytes} (hv : isValid v = true) (hb : ∀ b ∈ v, isBlank b = false) :
    IsValue v :=
  ⟨hv, fun b h => hb b (List.mem_of_head? h), fun b h => hb b (List.mem_of_getLast? h)⟩

theorem isValue_of_mem_words {w : Bytes} (hw : w ∈ words) : IsValue w := by
  have hwords : words.all (fun w => isValid w && w.all fun b => !isBlank b) = true := by decide
  obtain ⟨hvalid, hblank⟩ := Bool.and_eq_true_iff.mp (List.all_eq_true.mp hwords w hw)
  exact .of_bytes hvalid fun b hb => by simpa using List.all_eq_true.mp hblank b hb

theorem IsValue.of_enclosed {b c : UInt8} {s : Bytes} (hb : isBlank b = false)
    (hc : isBlank c = false) (h : isValid (b :: (s ++ [c])) = true) :
    IsValue (b :: (s ++ [c])) := by
  refine ⟨h, ?_, ?_⟩
  · rintro x ⟨⟩
    exact hb
  · intro x hx
    rw [← List.cons_append, List.getLast?_concat] at hx
    rwa [← Option.some.inj hx]

theorem IsValue.of_quoted {body : Bytes} (h : StringBody body) :
    IsValue (Bytes.quote :: (body ++ [Bytes.quote])) := by
  have hopen : ScanState.step? .start Bytes.quote = some ⟨.text false, []⟩ := rfl
  refine .of_enclosed rfl rfl (isValid_iff.mpr ⟨⟨.next, []⟩, ?_, rfl⟩)
  rw [ScanState.run?_cons_of_step hopen, ScanState.run?_body h]
  rfl

theorem isValue_writeString (html : Bool) (s : Bytes) : IsValue (writeString html s) :=
  .of_quoted (isBody_stringBody html s)

theorem isBlank_of_isDigit {b : UInt8} (hb : Bytes.isDigit b = true) : isBlank b = false := by
  grind [Bytes.isDigit, isBlank]

theorem ScanState.run?_whole {s : Bytes} (hs : ∀ b ∈ s, Bytes.isDigit b = true) :
    ScanState.run? ⟨.digits .whole, []⟩ s = some ⟨.digits .whole, []⟩ := by
  induction s with
  | nil => rfl
  | cons b s ih =>
    obtain ⟨hb, hs⟩ := List.forall_mem_cons.mp hs
    have hstep : ScanState.step? ⟨.digits .whole, []⟩ b = some ⟨.digits .whole, []⟩ := by
      simp [ScanState.step?, NumberPart.extend?, hb]
    rw [ScanState.run?_cons_of_step hstep, ih hs]

/-- A numeral is a number, also after a sign: only zero starts with a zero. -/
theorem ScanState.run?_decimal {st : ScanState}
    (hzero : st.step? Bytes.zero = some ⟨.digits .zero, []⟩)
    (hdigit : ∀ b, Bytes.isDigit b = true → b ≠ Bytes.zero →
      st.step? b = some ⟨.digits .whole, []⟩) (k : Nat) :
    ∃ fin, st.run? (Bytes.decimal k) = some fin ∧ fin.isComplete = true := by
  rcases Nat.eq_zero_or_pos k with rfl | hk
  · refine ⟨⟨.digits .zero, []⟩, ?_, rfl⟩
    rw [Bytes.decimal_zero, run?_cons_of_step hzero, run?_nil]
  · obtain ⟨b, s, hs, hb, hne⟩ := Bytes.decimal_head hk
    have hdigits := Bytes.isDigit_decimal k
    rw [hs] at hdigits ⊢
    refine ⟨⟨.digits .whole, []⟩, ?_, rfl⟩
    rw [run?_cons_of_step (hdigit b hb hne), run?_whole (List.forall_mem_cons.mp hdigits).2]

theorem isValue_decimalInt64 (n : Int64) : IsValue (Bytes.decimalInt64 n) := by
  have hblank : ∀ k, ∀ b ∈ Bytes.decimal k, isBlank b = false :=
    fun k b hb => isBlank_of_isDigit (Bytes.isDigit_decimal k b hb)
  rcases Integer.decimalInt64_cases n with ⟨k, -, -, hn⟩ | ⟨k, -, -, -, hn⟩
  · have hdigit : ∀ b, Bytes.isDigit b = true → b ≠ Bytes.zero →
        ScanState.step? .start b = some ⟨.digits .whole, []⟩ := by
      intro b hb hne
      have hother : b ≠ Bytes.quote ∧ b ≠ Bytes.openBrace ∧ b ≠ Bytes.openBracket ∧
          b ≠ Bytes.minus := by
        refine ⟨?_, ?_, ?_, ?_⟩ <;> rintro rfl <;> exact absurd hb (by decide)
      simp [ScanState.start, ScanState.step?, isBlank_of_isDigit hb, ScanState.beginValue?, hother,
        hne, hb]
    obtain ⟨fin, hrun, hfin⟩ := ScanState.run?_decimal rfl hdigit k
    rw [hn]
    exact .of_bytes (isValid_iff.mpr ⟨fin, hrun, hfin⟩) (hblank k)
  · have hminus : ScanState.step? .start Bytes.minus = some ⟨.digits .minus, []⟩ := rfl
    have hdigit : ∀ b, Bytes.isDigit b = true → b ≠ Bytes.zero →
        ScanState.step? ⟨.digits .minus, []⟩ b = some ⟨.digits .whole, []⟩ := by
      intro b hb hne
      simp [ScanState.step?, NumberPart.extend?, hb, hne]
    obtain ⟨fin, hrun, hfin⟩ := ScanState.run?_decimal rfl hdigit k
    rw [hn]
    refine .of_bytes (isValid_iff.mpr ⟨fin, ?_, hfin⟩) (List.forall_mem_cons.mpr ⟨rfl, hblank k⟩)
    rw [ScanState.run?_cons_of_step hminus, hrun]

theorem Glimpse.ofText_numeral {raw : Bytes} {n : Int} (h : Integer.IsNumeral raw n) :
    ofText raw = ⟨.number, raw⟩ := by
  have hnumber : ∀ b s, (b = Bytes.minus ∨ Bytes.isDigit b = true) →
      (∀ c ∈ s, Bytes.isDigit c = true) → ofText (b :: s) = ⟨.number, b :: s⟩ := by
    intro b s hb hs
    have hnumerals : ∀ c ∈ s, isNumeral c = true := by
      intro c hc
      simp [isNumeral, hs c hc]
    have htake : takeNumber b (s ++ []) = (⟨.number, b :: s⟩, []) :=
      takeNumber_append ends_nil hnumerals
    rw [List.append_nil] at htake
    have hplain : takePlain? b s = some (takeNumber b s) := by
      rcases hb with rfl | hb
      · rfl
      · have hcontainer : startsContainer b = false := by grind [Bytes.isDigit, startsContainer]
        simp [takePlain?, hcontainer, startsNumber, hb]
    rw [htake] at hplain
    refine ofText_plain ?_ ?_ ?_ hplain
    · grind [Bytes.isDigit]
    · grind [Bytes.isDigit, startsContainer]
    · rintro rfl
      exact absurd hb (by decide)
  cases h with
  | plain k =>
    have hdigits := Bytes.isDigit_decimal k
    cases hk : Bytes.decimal k with
    | nil => exact absurd hk (Bytes.decimal_ne_nil k)
    | cons b s =>
      rw [hk] at hdigits
      obtain ⟨hb, hs⟩ := List.forall_mem_cons.mp hdigits
      exact hnumber b s (.inr hb) hs
  | minus k => exact hnumber _ _ (.inl rfl) (Bytes.isDigit_decimal k)

theorem Glimpse.ofText_decimalInt64 (n : Int64) :
    ofText (Bytes.decimalInt64 n) = ⟨.number, Bytes.decimalInt64 n⟩ :=
  ofText_numeral (Integer.isNumeral_decimalInt64 n)

/-! ## Texts with commas between them -/

def separated : List Bytes → Bytes
  | [] => []
  | t :: ts => t ++ ts.flatMap (Bytes.comma :: ·)

theorem separated_cons_cons (t t' : Bytes) (ts : List Bytes) :
    separated (t :: t' :: ts) = t ++ Bytes.comma :: separated (t' :: ts) := by
  simp [separated]

theorem writeItems_eq (items : List Json) :
    writeItems html items = separated (items.map (write html)) := by
  induction items with
  | nil => rfl
  | cons item items ih =>
    cases items with
    | nil => simp [writeItems, separated]
    | cons item' items =>
      rw [writeItems, ih]
      · exact (separated_cons_cons ..).symm
      · simp

def writeMember (html : Bool) (m : Bytes × Json) : Bytes :=
  writeString html m.1 ++ Bytes.colon :: write html m.2

theorem writeMembers_eq (members : List (Bytes × Json)) :
    writeMembers html members = separated (members.map (writeMember html)) := by
  induction members with
  | nil => rfl
  | cons m members ih =>
    cases members with
    | nil => simp [writeMembers, separated, writeMember]
    | cons m' members =>
      rw [writeMembers, ih]
      · exact (separated_cons_cons ..).symm
      · simp

/-! ## Arrays -/

def arrayText (vs : List Bytes) : Bytes :=
  Bytes.openBracket :: (separated vs ++ [Bytes.closeBracket])

theorem exists_itemTexts {vs : List Bytes} (hvs : ∀ v ∈ vs, IsValue v) :
    ∃ is : List ItemText, is.map ItemText.text = vs ∧ is.map ItemText.value = vs := by
  induction vs with
  | nil => exact ⟨[], rfl, rfl⟩
  | cons v vs ih =>
    obtain ⟨hv, hvs⟩ := List.forall_mem_cons.mp hvs
    obtain ⟨is, htext, hvalue⟩ := ih hvs
    refine ⟨⟨[], v, [], Blank.nil, hv, Blank.nil⟩ :: is, ?_, ?_⟩
    · simp [htext, ItemText.text]
    · simp [hvalue]

theorem hasItems_arrayText {vs : List Bytes} (hvs : ∀ v ∈ vs, IsValue v) :
    HasItems (arrayText vs) vs := by
  obtain ⟨is, htext, hvalue⟩ := exists_itemTexts hvs
  refine ⟨⟨[], [], is, [], Blank.nil, Blank.nil, Blank.nil⟩, ?_, hvalue⟩
  rw [arrayText, ← htext, ArrayText.text]
  cases is with
  | nil => rfl
  | cons i is => simp [ArrayText.inside, ArrayText.tail, separated, List.flatMap_map]

theorem isValue_arrayText {vs : List Bytes} (hvs : ∀ v ∈ vs, IsValue v) :
    IsValue (arrayText vs) := by
  obtain ⟨d, hd, -⟩ := hasItems_arrayText hvs
  have hvalid := d.isValid_text
  rw [hd] at hvalid
  exact .of_enclosed rfl rfl hvalid

theorem Glimpse.elements_arrayText {vs : List Bytes} (hvs : ∀ v ∈ vs, IsValue v) :
    (ofText (arrayText vs)).elements = vs.map ofText :=
  (hasItems_arrayText hvs).elements

/-! ## Objects -/

/-- A member without white space, except in front of it. -/
def MemberText.plain (html : Bool) (before name : Bytes) {raw : Bytes} (hbefore : Blank before)
    (hraw : IsValue raw) : MemberText :=
  ⟨before, stringBody html name, [], [], raw, [], hbefore, isBody_stringBody html name, Blank.nil,
    Blank.nil, hraw, Blank.nil⟩

section

variable {before name raw : Bytes} (hbefore : Blank before) (hraw : IsValue raw)

theorem MemberText.text_plain : (MemberText.plain html before name hbefore hraw).text =
    before ++ (writeString html name ++ Bytes.colon :: raw) := by
  simp [MemberText.plain, MemberText.text, writeString_eq]

theorem MemberText.view_plain :
    (MemberText.plain html before name hbefore hraw).view = (writeString html name, raw) := rfl

end

theorem exists_memberTexts {members : List (Bytes × Json)}
    (h : ∀ m ∈ members, IsValue (write html m.2)) :
    ∃ ms : List MemberText, ms.map MemberText.text = members.map (writeMember html) ∧
      ms.map MemberText.view = members.map fun m => (writeString html m.1, write html m.2) := by
  induction members with
  | nil => exact ⟨[], rfl, rfl⟩
  | cons m members ih =>
    obtain ⟨hm, hmembers⟩ := List.forall_mem_cons.mp h
    obtain ⟨ms, htext, hview⟩ := ih hmembers
    refine ⟨.plain html [] m.1 Blank.nil hm :: ms, ?_, ?_⟩
    · rw [List.map_cons, List.map_cons, htext, MemberText.text_plain]
      rfl
    · rw [List.map_cons, List.map_cons, hview, MemberText.view_plain]

/-- A written object is the text of an object with its members. -/
theorem exists_objectText_write {members : List (Bytes × Json)}
    (h : ∀ m ∈ members, IsValue (write html m.2)) :
    ∃ d : ObjectText, d.text = write html (object members) ∧
      d.view = members.map fun m => (writeString html m.1, write html m.2) := by
  obtain ⟨ms, htext, hview⟩ := exists_memberTexts h
  refine ⟨⟨[], [], ms, [], Blank.nil, Blank.nil, Blank.nil⟩, ?_, hview⟩
  rw [write, writeMembers_eq, ← htext, ObjectText.text]
  cases ms with
  | nil => rfl
  | cons m ms => simp [ObjectText.inside, ObjectText.tail, separated, List.flatMap_map]

/-! ## All values -/

/-- A value whose numbers are whole ones of 64 bits, with at most `depth`
containers in one another. -/
inductive Fits : (depth : Nat) → Json → Prop
  | null {depth : Nat} : Fits depth null
  | bool {depth : Nat} (b : Bool) : Fits depth (bool b)
  | int {depth : Nat} (n : Int64) : Fits depth (int n)
  | string {depth : Nat} (s : Bytes) : Fits depth (string s)
  | array {depth : Nat} {items : List Json} (h : ∀ item ∈ items, Fits depth item) :
      Fits (depth + 1) (array items)
  | object {depth : Nat} {members : List (Bytes × Json)} (h : ∀ m ∈ members, Fits depth m.2) :
      Fits (depth + 1) (object members)

theorem write_array (items : List Json) :
    write html (array items) = arrayText (items.map (write html)) := by
  rw [write, writeItems_eq]
  rfl

theorem Fits.isValue_write {j : Json} (h : Fits depth j) (html : Bool) :
    IsValue (write html j) := by
  induction h with
  | null => exact isValue_of_mem_words (.head _)
  | bool b =>
    cases b with
    | true => exact isValue_of_mem_words (.tail _ (.head _))
    | false => exact isValue_of_mem_words (.tail _ (.tail _ (.head _)))
  | int n => exact isValue_decimalInt64 n
  | string s => exact isValue_writeString html s
  | array _ ih =>
    rw [write_array]
    refine isValue_arrayText ?_
    intro v hv
    obtain ⟨item, hitem, rfl⟩ := List.mem_map.mp hv
    exact ih item hitem
  | object _ ih =>
    obtain ⟨d, hd, -⟩ := exists_objectText_write ih
    have hvalid := d.isValid_text
    rw [hd] at hvalid
    exact .of_enclosed rfl rfl hvalid

/-! ## Looking up members -/

/-- Whether a name is made of small letters and underscores. -/
def isFieldName (name : Bytes) : Bool := name.all fun b => Bytes.isLower b || b == Bytes.underscore

theorem fieldByte_toNat {b : UInt8} (hb : (Bytes.isLower b || b == Bytes.underscore) = true) :
    0x5F ≤ b.toNat ∧ b.toNat ≤ 0x7A := by
  simp only [Bytes.isLower, UInt8.le_iff_toNat_le, Bool.or_eq_true, Bool.and_eq_true,
    decide_eq_true_eq, beq_iff_eq] at hb
  rcases hb with ⟨hlow, hhigh⟩ | rfl
  · simp only [UInt8.reduceToNat] at hlow hhigh
    omega
  · decide

theorem escape_fieldByte {b : UInt8} (hb : (Bytes.isLower b || b == Bytes.underscore) = true)
    (html : Bool) : escape html b.toNat = [b] := by
  obtain ⟨hlow, hhigh⟩ := fieldByte_toNat hb
  have hcode : (b.toNat < 0x20 || b.toNat == 0x2028 || b.toNat == 0x2029 ||
      (html && (b.toNat == 0x3C || b.toNat == 0x3E || b.toNat == 0x26))) = false := by
    simp
    omega
  have hshort : ∀ c ∈ [0x22, 0x5C, 0x08, 0x0C, 0x0A, 0x0D, 0x09], (b.toNat == c) = false := by
    simp
    omega
  simp only [List.forall_mem_cons] at hshort
  simp only [escape, hshort, hcode, Bool.false_eq_true, if_false, Utf8.encode]
  rw [if_pos (by omega), UInt8.ofNat_toNat]

theorem isAscii_fieldName {name : Bytes} (h : isFieldName name = true) : Utf8.IsAscii name := by
  intro b hb
  have := fieldByte_toNat (List.all_eq_true.mp h b hb)
  omega

theorem stringBody_fieldName {name : Bytes} (h : isFieldName name = true) (html : Bool) :
    stringBody html name = name := by
  have hbytes := List.all_eq_true.mp h
  rw [stringBody, Utf8.decode_ascii (isAscii_fieldName h), List.flatMap_map]
  calc name.flatMap (fun b => escape html b.toNat)
      = name.flatMap fun b => [b] :=
        List.flatMap_congr fun b hb => escape_fieldByte (hbytes b hb) html
    _ = name := List.flatMap_singleton' name

/-- A name of small letters and underscores is written as it is. -/
theorem nameOf_writeString {name : Bytes} (h : isFieldName name = true) (html : Bool) :
    nameOf (writeString html name) = name := by
  have hslash : name.contains Bytes.backslash = false := by
    rw [List.contains_eq_mem, decide_eq_false_iff_not]
    intro hmem
    exact absurd (List.all_eq_true.mp h _ hmem) (by decide)
  rw [writeString_eq, nameOf_quoted (isBody_stringBody html name), stringBody_fieldName h,
    Glimpse.unescape, if_neg (by rw [hslash]; decide)]

theorem rawValue?_written {members : List (Bytes × Json)}
    (hnames : members.all (fun m => isFieldName m.1) = true) (name : Bytes) :
    rawValue? name (members.map fun m => (writeString html m.1, write html m.2)) =
      (members.lookup name).map (write html) := by
  induction members with
  | nil => rfl
  | cons m members ih =>
    obtain ⟨key, value⟩ := m
    obtain ⟨hkey, hmembers⟩ := Bool.and_eq_true_iff.mp hnames
    have hname := nameOf_writeString hkey html
    by_cases h : key = name
    · subst h
      simp [rawValue?, hname]
    · have hne : (name == key) = false := by simpa using Ne.symm h
      have ih := ih hmembers
      simpa [rawValue?, List.lookup_cons, hname, h, hne] using ih

/-- The first object of the outer name decides, if it has the inner name. -/
theorem Glimpse.findWithin_eq {s outer inner : Bytes} {m m' : Member}
    (hm : (members s).find? (·.name == outer) = some m)
    (hobject : m.value.raw.head? = some Bytes.openBrace)
    (hm' : (members m.value.raw).find? (·.name == inner) = some m') :
    findWithin outer inner s = m'.value := by
  obtain ⟨hname, l, r, hs, hl⟩ := List.find?_eq_some_iff_append.mp hm
  have hbefore : l.findSome? (fun m =>
      if m.name == outer && m.value.raw.head? == some Bytes.openBrace then
        ((members m.value.raw).find? (·.name == inner)).map (·.value)
      else none) = none := by
    rw [List.findSome?_eq_none_iff]
    intro x hx
    have hx : (x.name == outer) = false := by simpa using hl x hx
    simp [hx]
  rw [findWithin, hs, List.findSome?_append, hbefore]
  simp [hobject, hm', eq_of_beq hname]

section

variable {members inside : List (Bytes × Json)} {value : Json}

theorem find?_write (html : Bool) (h : Fits depth (object members))
    (hnames : members.all (fun m => isFieldName m.1) = true) (name : Bytes) :
    ((Glimpse.members (write html (object members))).find? (·.name == name)).map (·.value) =
      (members.lookup name).map fun value => .ofText (write html value) := by
  cases h with
  | object h =>
    obtain ⟨d, hd, hview⟩ := exists_objectText_write fun m hm => (h m hm).isValue_write html
    rw [← hd, ObjectText.members_text, ObjectText.find?_readings_value, ← ObjectText.view, hview,
      rawValue?_written hnames, Option.map_map]
    rfl

/-- The tolerant reader finds the members of a written object. -/
theorem find_write (html : Bool) (h : Fits depth (object members))
    (hnames : members.all (fun m => isFieldName m.1) = true) (name : Bytes) :
    Glimpse.find name (write html (object members)) =
      (members.lookup name).elim .missing fun value => .ofText (write html value) := by
  have hvalue := find?_write html h hnames name
  rw [Glimpse.find, Glimpse.pick]
  cases hread : (Glimpse.members (write html (object members))).find? (·.name == name) <;>
    cases hraw : members.lookup name <;> simp_all

theorem findWithin_write (html : Bool) {outer inner : Bytes} (h : Fits depth (object members))
    (hnames : members.all (fun m => isFieldName m.1) = true)
    (houter : members.lookup outer = some (object inside))
    (h' : Fits depth (object inside))
    (hnames' : inside.all (fun m => isFieldName m.1) = true)
    (hinner : inside.lookup inner = some value) :
    Glimpse.findWithin outer inner (write html (object members)) = .ofText (write html value) := by
  have hread := find?_write html h hnames outer
  rw [houter, Option.map_some, Option.map_eq_some_iff] at hread
  obtain ⟨m, hm, hvalue⟩ := hread
  have hread' := find?_write html h' hnames' inner
  rw [hinner, Option.map_some, Option.map_eq_some_iff] at hread'
  obtain ⟨m', hm', hvalue'⟩ := hread'
  have hraw : m.value.raw = write html (object inside) := by
    rw [hvalue, Glimpse.ofText_raw (h'.isValue_write html).text]
  rw [Glimpse.findWithin_eq hm (by rw [hraw]; rfl) (by rw [hraw]; exact hm'), hvalue']

end

end Json

end ScanTriage
