import ScanTriage.Proofs.Annotate.Verified
import ScanTriage.Proofs.Json.Items

/-!
# What a verified report says

A triage report is documented to say that it was performed, with a `true`, and to
give counts that are whole numbers and add up. `verify` reads all of that
tolerantly and counts in 64 bits. Where the members have the types they are
documented with, it accepts what agrees modulo `2 ^ 64` (`verify_iff_of_stands`),
so it is right about every report whose counts fit. A text or a number in the
place of a `true`, an object in the place of a list, and counts that leave the
range all pass as well (`verify_accepts_coerced`).
-/

namespace ScanTriage

namespace Json

/-- A member of a member is found where the outer one is an object. -/
theorem HasMembers.findWithin {s raw value outer inner : Bytes}
    {members inside : List (Bytes × Bytes)} (h : HasMembers s members)
    (houter : rawValue? outer members = some raw) (hinside : HasMembers raw inside)
    (hinner : rawValue? inner inside = some value) :
    Glimpse.findWithin outer inner s = .ofText value := by
  have hraw := h.isValue houter
  have hread := h.find?_members outer
  rw [houter, Option.map_some, Option.map_eq_some_iff] at hread
  obtain ⟨m, hm, hvalue⟩ := hread
  have hread' := hinside.find?_members inner
  rw [hinner, Option.map_some, Option.map_eq_some_iff] at hread'
  obtain ⟨m', hm', hvalue'⟩ := hread'
  have hmraw : m.value.raw = raw := by rw [hvalue, Glimpse.ofText_raw hraw.text]
  rw [Glimpse.findWithin_eq hm (by rw [hmraw]; exact (hinside.ofText_eq hraw).2)
    (by rw [hmraw]; exact hm'), hvalue']

end Json

namespace Annotate

open Json (Glimpse HasMembers HasItems rawValue?)

/-! ## Documented types -/

/-- The raw members of the triage report in an annotated text. -/
def HasTriage (annotated : Bytes) (members : List (Bytes × Bytes)) : Prop :=
  ∃ outer raw, HasMembers annotated outer ∧ rawValue? key outer = some raw ∧
    HasMembers raw members

/-- The member of a member that is an object is the whole number `n`. -/
def IntegerAt (members : List (Bytes × Bytes)) (outer inner : Bytes) (n : Int) : Prop :=
  ∃ raw inside numeral, rawValue? outer members = some raw ∧ HasMembers raw inside ∧
    rawValue? inner inside = some numeral ∧ Integer.IsNumeral numeral n

/-- What a triage report says of itself. -/
structure Account where
  performed : Bool
  reviewed : Int
  confirmed : Int
  falsePositives : Int
  needsReview : Int

namespace Account

def sum (a : Account) : Int := a.confirmed + a.falsePositives + a.needsReview

/-- The account stands in the members of a triage report. -/
structure Stands (a : Account) (members : List (Bytes × Bytes)) : Prop where
  performed : rawValue? "performed" members = some ((Json.bool a.performed).write false)
  reviewed : IntegerAt members "scope" "findings_reviewed" a.reviewed
  confirmed : IntegerAt members "summary" "confirmed_issues" a.confirmed
  falsePositives : IntegerAt members "summary" "false_positives" a.falsePositives
  needsReview : IntegerAt members "summary" "needs_review" a.needsReview

end Account

/-- The triaged findings of a triage report; a list that is left out has none. -/
def Lists (members : List (Bytes × Bytes)) (records : List Bytes) : Prop :=
  (rawValue? "triaged_findings" members).elim (records = []) (HasItems · records)

/-- What an annotated report is documented to be. -/
def Documented (source annotated : Bytes) : Prop :=
  ∃ (members : List (Bytes × Bytes)) (a : Account) (records : List Bytes),
    HasTriage annotated members ∧ a.Stands members ∧ Lists members records ∧
    a.performed = true ∧ (records.length : Int) = a.reviewed ∧ a.sum = a.reviewed ∧
    rawFindings source = rawFindings annotated

/-- The whole numbers of 64 bits. -/
def IsWord (n : Int) : Prop := -(2 ^ 63) ≤ n ∧ n < 2 ^ 63

/-- The members of the triage report have their documented types, and the counts
fit 64 bits. Nothing is said about how the values agree. -/
def IsTyped (annotated : Bytes) : Prop :=
  ∃ (members : List (Bytes × Bytes)) (a : Account),
    HasTriage annotated members ∧ a.Stands members ∧
    (∀ raw, rawValue? "triaged_findings" members = some raw →
      raw.head? = some Bytes.openBracket ∧ raw.length < 2 ^ 63) ∧
    IsWord a.reviewed ∧ IsWord a.sum

/-! ## What `verify` reads -/

variable {source annotated s : Bytes} {members : List (Bytes × Bytes)} {a : Account}
  {records : List Bytes} {outer inner : Bytes} {n : Int}

theorem toInt_numeral {numeral : Bytes} (h : Integer.IsNumeral numeral n) :
    (Glimpse.ofText numeral).toInt = Int64.ofInt n := by
  rw [Glimpse.ofText_numeral h]
  exact Glimpse.numberToInt_numeral h

theorem IntegerAt.findWithin (hs : HasMembers s members) (h : IntegerAt members outer inner n) :
    (Glimpse.findWithin outer inner s).toInt = Int64.ofInt n := by
  obtain ⟨raw, inside, numeral, houter, hinside, hinner, hn⟩ := h
  rw [hs.findWithin houter hinside hinner, toInt_numeral hn]

theorem IntegerAt.get (hs : HasMembers s members) (h : IntegerAt members outer inner n) :
    ((Glimpse.find outer s).get inner).toInt = Int64.ofInt n := by
  obtain ⟨raw, inside, numeral, houter, hinside, hinner, hn⟩ := h
  rw [hs.find, houter, Option.elim_some, Glimpse.get, Glimpse.ofText_raw (hs.isValue houter).text,
    hinside.find, hinner, Option.elim_some, toInt_numeral hn]

theorem Lists.length_elements (hs : HasMembers s members) (h : Lists members records) :
    (Glimpse.find "triaged_findings" s).elements.length = records.length := by
  rw [Lists] at h
  rw [hs.find]
  cases hraw : rawValue? "triaged_findings" members with
  | none =>
    rw [hraw, Option.elim_none] at h
    subst h
    rfl
  | some raw =>
    rw [hraw, Option.elim_some] at h
    rw [Option.elim_some, h.elements, List.length_map]

/-- Among reports with the documented types, `verify` accepts those that agree
with themselves modulo `2 ^ 64` and have kept their findings. -/
theorem verify_iff_of_stands (htriage : HasTriage annotated members) (ha : a.Stands members)
    (hrecords : Lists members records) :
    verify source annotated = .ok () ↔ a.performed = true ∧
      Int64.ofNat records.length = Int64.ofInt a.reviewed ∧
      Int64.ofInt a.sum = Int64.ofInt a.reviewed ∧
      rawFindings source = rawFindings annotated := by
  obtain ⟨top, raw, htop, hkey, hmembers⟩ := htriage
  obtain ⟨hread, hhead⟩ := hmembers.ofText_eq (htop.isValue hkey)
  have hfind : Glimpse.find key annotated = ⟨.nested, raw⟩ := by
    rw [htop.find, hkey, Option.elim_some, hread]
  have hobject : (Glimpse.find key annotated).isObject = true := by
    rw [hfind, Glimpse.isObject, hhead]
    rfl
  have hget : ∀ name, (Glimpse.find key annotated).get name = Glimpse.find name raw := by
    intro name
    rw [hfind, Glimpse.get]
  have hperformed : ((Glimpse.find key annotated).get "performed").toBool = a.performed := by
    rw [hget, hmembers.find, ha.performed, Option.elim_some]
    cases a.performed <;> rfl
  have hlength : ((Glimpse.find key annotated).get "triaged_findings").elements.length =
      records.length := by
    rw [hget, hrecords.length_elements hmembers]
  have hreviewed : (Glimpse.findWithin "scope" "findings_reviewed"
      (Glimpse.find key annotated).raw).toInt = Int64.ofInt a.reviewed := by
    rw [hfind, ha.reviewed.findWithin hmembers]
  have hsum : (((Glimpse.find key annotated).get "summary").get "confirmed_issues").toInt +
      (((Glimpse.find key annotated).get "summary").get "false_positives").toInt +
      (((Glimpse.find key annotated).get "summary").get "needs_review").toInt =
        Int64.ofInt a.sum := by
    rw [hget, ha.confirmed.get hmembers, ha.falsePositives.get hmembers,
      ha.needsReview.get hmembers, ← Int64.ofInt_add, ← Int64.ofInt_add, Account.sum]
  rw [verify_eq_ok_iff]
  constructor
  · rintro ⟨-, -, hp, hr, hs, hf⟩
    rw [hperformed] at hp
    rw [hlength, hreviewed] at hr
    rw [hsum, hreviewed] at hs
    exact ⟨hp, hr, hs, hf⟩
  · rintro ⟨hp, hr, hs, hf⟩
    refine ⟨htop.isValid, hobject, ?_, ?_, ?_, hf⟩
    · rw [hperformed, hp]
    · rw [hlength, hreviewed, hr]
    · rw [hsum, hreviewed, hs]

/-! ## Where the types are as documented -/

/-- A verified text is an object with a triage report, whatever its types. -/
theorem Intact.hasTriage (h : Intact source annotated) :
    ∃ members, HasTriage annotated members := by
  have hopen : (Json.skipBlank annotated).head? = some Bytes.openBrace := by
    by_contra hopen
    have hobject := h.isObject
    rw [Glimpse.find, Json.members_eq_nil h.valid hopen] at hobject
    cases hobject
  obtain ⟨d, rfl⟩ := Json.exists_objectText h.valid hopen
  have htop : HasMembers d.text d.view := ⟨d, rfl, rfl⟩
  have hobject := h.isObject
  rw [htop.find] at hobject
  cases hkey : rawValue? key d.view with
  | none =>
    rw [hkey] at hobject
    cases hobject
  | some raw =>
    have hvalue := htop.isValue hkey
    rw [hkey, Option.elim_some, Glimpse.isObject, Glimpse.ofText_raw hvalue.text] at hobject
    have hhead := eq_of_beq (Bool.and_eq_true_iff.mp hobject).2
    obtain ⟨members, hmembers⟩ := Json.exists_hasMembers hvalue hhead
    exact ⟨members, d.view, raw, htop, hkey, hmembers⟩

/-- A list that is left out or an array has records that can be counted. -/
theorem exists_lists (htriage : HasTriage annotated members)
    (h : ∀ raw, rawValue? "triaged_findings" members = some raw →
      raw.head? = some Bytes.openBracket ∧ raw.length < 2 ^ 63) :
    ∃ records, Lists members records ∧ records.length < 2 ^ 63 := by
  obtain ⟨_, _, _, _, hmembers⟩ := htriage
  unfold Lists
  cases hraw : rawValue? "triaged_findings" members with
  | none => exact ⟨[], rfl, by decide⟩
  | some raw =>
    obtain ⟨hhead, hlen⟩ := h raw hraw
    obtain ⟨records, hitems, hrecords⟩ := Json.exists_hasItems (hmembers.isValue hraw) hhead
    exact ⟨records, hitems, by omega⟩

theorem eq_of_ofInt_eq {m : Int} (hm : IsWord m) (hn : IsWord n)
    (h : Int64.ofInt m = Int64.ofInt n) : m = n := by
  obtain ⟨hm, hm'⟩ := hm
  obtain ⟨hn, hn'⟩ := hn
  rw [← Int64.toInt_ofInt_of_le (n := m) (by omega) (by omega), h,
    Int64.toInt_ofInt_of_le (by omega) (by omega)]

/-- `verify` accepts every report that is as documented. What it accepts is valid,
has a triage report and the findings of its source; and where the members of the
triage report have their documented types and the counts fit 64 bits, it is as
documented. -/
theorem verify_documented (source annotated : Bytes) :
    (Documented source annotated → verify source annotated = .ok ()) ∧
    (verify source annotated = .ok () →
      Json.isValid annotated = true ∧ (∃ members, HasTriage annotated members) ∧
        rawFindings source = rawFindings annotated ∧
        (IsTyped annotated → Documented source annotated)) := by
  constructor
  · rintro ⟨members, a, records, htriage, ha, hrecords, hperformed, hlength, hsum, hfindings⟩
    rw [verify_iff_of_stands htriage ha hrecords]
    refine ⟨hperformed, ?_, by rw [hsum], hfindings⟩
    rw [← hlength, Int64.ofInt_eq_ofNat]
  · intro hok
    have hintact := verify_eq_ok_iff.mp hok
    refine ⟨hintact.valid, hintact.hasTriage, hintact.findings, ?_⟩
    rintro ⟨members, a, htriage, ha, harray, hreviewed, hsum⟩
    obtain ⟨records, hrecords, hfew⟩ := exists_lists htriage harray
    obtain ⟨hperformed, hlength, hcounts, hfindings⟩ :=
      (verify_iff_of_stands htriage ha hrecords).mp hok
    rw [← Int64.ofInt_eq_ofNat] at hlength
    have hword : IsWord records.length := ⟨by omega, by omega⟩
    exact ⟨members, a, records, htriage, ha, hrecords, hperformed,
      eq_of_ofInt_eq hword hreviewed hlength, eq_of_ofInt_eq hsum hreviewed hcounts, hfindings⟩

/-! ## Texts that are accepted -/

theorem IntegerAt.unique {m : Int} (hm : IntegerAt members outer inner m)
    (hn : IntegerAt members outer inner n) : m = n := by
  obtain ⟨raw, inside, numeral, houter, hinside, hinner, hm⟩ := hm
  obtain ⟨raw', inside', numeral', houter', hinside', hinner', hn⟩ := hn
  obtain rfl := Option.some.inj (houter.symm.trans houter')
  obtain rfl := hinside.unique hinside'
  obtain rfl := Option.some.inj (hinner.symm.trans hinner')
  exact hm.unique hn

theorem integerAt_of_find {w : Int64} (h : HasMembers s members)
    (hopen : (Glimpse.find outer s).raw.head? = some Bytes.openBrace)
    (hw : (Glimpse.find inner (Glimpse.find outer s).raw).raw = Bytes.decimalInt64 w) :
    IntegerAt members outer inner w.toInt := by
  have hnumeral := Integer.isNumeral_decimalInt64 w
  have hne : (Glimpse.find outer s).raw ≠ [] := by
    intro hnil
    rw [hnil] at hopen
    cases hopen
  have houter := h.rawValue?_eq rfl hne
  obtain ⟨inside, hinside⟩ := Json.exists_hasMembers (h.isValue houter) hopen
  exact ⟨_, inside, _, houter, hinside, hinside.rawValue?_eq hw hnumeral.ne_nil, hnumeral⟩

/-- An account of 64-bit counts that the tolerant reader finds in an annotated
text stands there. -/
theorem exists_stands {performed : Bool} {reviewed confirmed falsePositives needsReview : Int64}
    (hfound : Json.isValid annotated = true ∧
      (Json.skipBlank annotated).head? = some Bytes.openBrace ∧
      (Glimpse.find key annotated).raw = s ∧ s.head? = some Bytes.openBrace ∧
      (Glimpse.find "performed" s).raw = (Json.bool performed).write false ∧
      (Glimpse.find "scope" s).raw.head? = some Bytes.openBrace ∧
      (Glimpse.find "findings_reviewed" (Glimpse.find "scope" s).raw).raw =
        Bytes.decimalInt64 reviewed ∧
      (Glimpse.find "summary" s).raw.head? = some Bytes.openBrace ∧
      (Glimpse.find "confirmed_issues" (Glimpse.find "summary" s).raw).raw =
        Bytes.decimalInt64 confirmed ∧
      (Glimpse.find "false_positives" (Glimpse.find "summary" s).raw).raw =
        Bytes.decimalInt64 falsePositives ∧
      (Glimpse.find "needs_review" (Glimpse.find "summary" s).raw).raw =
        Bytes.decimalInt64 needsReview) :
    ∃ members, HasTriage annotated members ∧ HasMembers s members ∧
      Account.Stands ⟨performed, reviewed.toInt, confirmed.toInt, falsePositives.toInt,
        needsReview.toInt⟩ members := by
  obtain ⟨hvalid, hopen, hs, hbrace, hperformed, hscope, hreviewed, hsummary, hconfirmed, hfalse,
    hneeds⟩ := hfound
  obtain ⟨d, rfl⟩ := Json.exists_objectText hvalid hopen
  have htop : HasMembers d.text d.view := ⟨d, rfl, rfl⟩
  have hkey : rawValue? key d.view = some s := by
    refine htop.rawValue?_eq hs ?_
    rintro rfl
    cases hbrace
  obtain ⟨members, hmembers⟩ := Json.exists_hasMembers (htop.isValue hkey) hbrace
  refine ⟨members, ⟨d.view, s, htop, hkey, hmembers⟩, hmembers, ?_,
    integerAt_of_find hmembers hscope hreviewed, integerAt_of_find hmembers hsummary hconfirmed,
    integerAt_of_find hmembers hsummary hfalse,
    integerAt_of_find hmembers hsummary hneeds⟩
  refine hmembers.rawValue?_eq hperformed ?_
  cases performed <;> exact List.cons_ne_nil _ _

def unannotated : Bytes := "\x7b\"findings\":[]\x7d"

/-- The report `unannotated` with a triage report of two records, spread out. -/
def spaced : Bytes :=
  ("\x7b \"findings\":[], \"ai_triage\" : \x7b\"performed\": true," : Bytes) ++
    "\"scope\":\x7b\"findings_reviewed\":2\x7d,\"summary\":\x7b\"confirmed_issues\":-1," ++
    "\"false_positives\":3,\"needs_review\":0\x7d,\"triaged_findings\":[ \x7b\x7d , 1]\x7d\x7d"

theorem verify_documented_spaced :
    IsTyped spaced ∧ verify unannotated spaced = .ok () ∧ Documented unannotated spaced := by
  have hok : verify unannotated spaced = .ok () := by decide +kernel
  have htyped : IsTyped spaced := by
    obtain ⟨members, htriage, hmembers, ha⟩ :=
      @exists_stands spaced (Glimpse.find key spaced).raw true 2 (-1) 3 0 (by decide +kernel)
    refine ⟨members, _, htriage, ha, ?_, ⟨by decide, by decide⟩, ⟨by decide, by decide⟩⟩
    intro raw hraw
    rw [← hmembers.raw_find hraw]
    decide +kernel
  exact ⟨htyped, hok, ((verify_documented unannotated spaced).2 hok).2.2.2 htyped⟩

/-- The report `unannotated` with a triage report that has a text for a `true`, and an
object for a list. -/
def coerced : Bytes :=
  ("\x7b\"findings\":[],\"ai_triage\":\x7b\"performed\":\"true\"," : Bytes) ++
    "\"scope\":\x7b\"findings_reviewed\":1\x7d,\"summary\":\x7b\"confirmed_issues\":0," ++
    "\"false_positives\":1,\"needs_review\":0\x7d,\"triaged_findings\":\x7b\"a\":1\x7d\x7d\x7d"

/-- The report `unannotated` with a triage report whose counts add up to `2 ^ 64 + 1`. -/
def overflowing : Bytes :=
  ("\x7b\"findings\":[],\"ai_triage\":\x7b\"performed\":true," : Bytes) ++
    "\"scope\":\x7b\"findings_reviewed\":1\x7d," ++
    "\"summary\":\x7b\"confirmed_issues\":9223372036854775807," ++
    "\"false_positives\":9223372036854775807,\"needs_review\":3\x7d," ++
    "\"triaged_findings\":[1]\x7d\x7d"

/-- Not all that is accepted is as documented. -/
theorem verify_accepts_coerced :
    (verify unannotated coerced = .ok () ∧ ¬ Documented unannotated coerced) ∧
      verify unannotated overflowing = .ok () ∧ ¬ Documented unannotated overflowing := by
  refine ⟨⟨by decide +kernel, ?_⟩, by decide +kernel, ?_⟩
  · rintro ⟨members, a, -, ⟨top, raw, htop, hkey, hmembers⟩, ha, -⟩
    have hraw := hmembers.raw_find ha.performed
    rw [← htop.raw_find hkey] at hraw
    cases hperformed : a.performed <;> rw [hperformed] at hraw <;>
      exact absurd hraw (by decide +kernel)
  · rintro ⟨members, a, -, ⟨top, raw, htop, hkey, hmembers⟩, ha, -, -, -, hsum, -⟩
    obtain ⟨members', -, hmembers', ha'⟩ :=
      @exists_stands overflowing (Glimpse.find key overflowing).raw true 1 9223372036854775807
        9223372036854775807 3 (by decide +kernel)
    rw [← htop.raw_find hkey] at hmembers
    obtain rfl := hmembers.unique hmembers'
    have hreviewed := ha.reviewed.unique ha'.reviewed
    have hconfirmed := ha.confirmed.unique ha'.confirmed
    have hfalse := ha.falsePositives.unique ha'.falsePositives
    have hneeds := ha.needsReview.unique ha'.needsReview
    rw [Account.sum, hreviewed, hconfirmed, hfalse, hneeds] at hsum
    exact absurd hsum (by decide)

end Annotate

end ScanTriage
