import ScanTriage.Annotate.Inject
import ScanTriage.Proofs.Annotate.Decoded
import ScanTriage.Proofs.Json.SetMember
import ScanTriage.Proofs.Json.Spelling

/-!
# Injecting a report

In a text that is an object, `inject` sets one member and leaves the others as
they are, byte for byte (`inject_sets_member`). What it gives for any valid text
is an object that holds the encoding under its key (`exists_objectText_inject`).
-/

namespace ScanTriage

namespace Annotate

open Json (Glimpse ObjectText HasMembers)

variable {data out : Bytes} {r : Report}

theorem isFieldName_key : Json.isFieldName key = true := by decide

def encoding (r : Report) : Bytes := r.toJson.write false

theorem isValue_encoding (r : Report) : Json.IsValue (encoding r) :=
  (r.fits_toJson 0).isValue_write false

/-- What `inject` gives is an object with the members that the tolerant reader
finds in the source, and with the encoding under its key. -/
theorem exists_objectText_inject (hdata : Json.isValid data = true)
    (h : inject data r = .ok out) :
    ∃ (ms : List (Bytes × Bytes)) (d : ObjectText), d.text = out ∧
      d.view = Json.setFirst key (encoding r) ms ∧
      ∀ name, Glimpse.find name data = (Json.rawValue? name ms).elim .missing .ofText := by
  by_cases hopen : (Json.skipBlank data).head? = some Bytes.openBrace
  · obtain ⟨d, rfl⟩ := Json.exists_objectText hdata hopen
    obtain ⟨d', hset, hview⟩ := d.setMember_text key (isValue_encoding r)
    refine ⟨d.view, d', ?_, hview, fun name => d.find_text name⟩
    exact Except.ok.inj (hset.symm.trans h)
  · have hsingle := Json.setMember_eq_single _ _ hdata hopen h
    refine ⟨[], ⟨[], [], [.plain true [] key .nil (isValue_encoding r)], [], .nil, .nil, .nil⟩, ?_,
      rfl, ?_⟩
    · rw [hsingle, Json.singleMember, Json.memberText]
      simp [ObjectText.text, ObjectText.inside, Json.MemberText.text_plain, encoding]
    · intro name
      rw [Glimpse.find, Json.members_eq_nil hdata hopen]
      rfl

theorem find_key {ms : List (Bytes × Bytes)} {d : ObjectText}
    (hview : d.view = Json.setFirst key (encoding r) ms) :
    Glimpse.find key d.text = ⟨.nested, encoding r⟩ := by
  have hname := Json.nameOf_writeString isFieldName_key true
  rw [ObjectText.find_text, hview, Json.rawValue?_setFirst hname, Option.elim_some]
  exact Glimpse.ofText_container rfl

theorem find_other {ms : List (Bytes × Bytes)} {d : ObjectText} {name : Bytes} (hne : name ≠ key)
    (hview : d.view = Json.setFirst key (encoding r) ms) :
    Glimpse.find name d.text = (Json.rawValue? name ms).elim .missing .ofText := by
  have hname := Json.nameOf_writeString isFieldName_key true
  rw [ObjectText.find_text, hview, Json.rawValue?_setFirst_of_ne hname hne]

/-! ## Objects -/

/-- In an object, the first member whose name is the key gets the encoding as
its value, or a member is added at the end. The key may be spelled with escapes;
the strict reader has the last word on that. -/
theorem inject_sets_member (hdata : Json.isValid data = true)
    (hobject : (Json.skipBlank data).head? = some Bytes.openBrace) (r : Report) :
    ∃ ms out, (∀ ms', HasMembers data ms' ↔ ms' = ms) ∧
      (∀ m ∈ ms, Json.nameOf m.1 = key ↔ Json.read? m.1 = some (.string key)) ∧
      inject data r = .ok out ∧
      (∀ ms', HasMembers out ms' ↔ ms' = Json.setFirst key (encoding r) ms) ∧
      (Json.setFirst key (encoding r) ms).filter (fun m => Json.nameOf m.1 != key) =
        ms.filter (fun m => Json.nameOf m.1 != key) ∧
      Glimpse.find key out = ⟨.nested, encoding r⟩ ∧
      Report.ofText? (encoding r) = some r.scrubbed := by
  obtain ⟨d, rfl⟩ := Json.exists_objectText hdata hobject
  obtain ⟨d', hset, hview⟩ := d.setMember_text key (isValue_encoding r)
  have hname := Json.nameOf_writeString isFieldName_key true
  refine ⟨d.view, d'.text, fun ms' => d.hasMembers_iff, ?_, hset, ?_, Json.filter_setFirst hname _,
    find_key hview, r.ofText?_encoding false⟩
  · intro m hm
    obtain ⟨x, -, rfl⟩ := List.mem_map.mp hm
    exact Json.nameOf_eq_iff x.isBody (Json.isAscii_fieldName isFieldName_key)
  · intro ms'
    rw [d'.hasMembers_iff, hview]

/-- A report of one finding whose texts hold a quote and a stray byte. -/
def oneFinding : Report where
  performed := true
  status := "complete"
  version := Report.formatVersion
  runId := "\"run\""
  timestamp := [0xFF]
  scope := ⟨1, 1⟩
  summary := ⟨1, 0, 0, .high⟩
  breakdown := ⟨1, 0, 0⟩
  narrative := []
  recommendations? := none
  records? := some [⟨⟨"http-no-timeout", "a.php", 7⟩, ⟨⟨.confirmed, .high, "\x7b"⟩, []⟩, true⟩]

/-- An annotated text with its key in another spelling, after its findings. -/
def respelled : Bytes := "\x7b\"findings\": [ ], \"\\u0061i_triage\": 0\x7d"

theorem inject_sets_member_respelled : ∃ out, inject respelled oneFinding = .ok out ∧
    Glimpse.find key out = ⟨.nested, encoding oneFinding⟩ := by
  have hvalid : Json.isValid respelled = true := by decide
  obtain ⟨ms, out, -, -, hout, -, -, hfind, -⟩ := inject_sets_member hvalid (by decide) oneFinding
  exact ⟨out, hout, hfind⟩

end Annotate

end ScanTriage
