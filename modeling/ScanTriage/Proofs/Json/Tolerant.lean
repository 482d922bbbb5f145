import ScanTriage.Proofs.Json.Spelling
import ScanTriage.Proofs.Number.Whole

/-!
# Written values and the tolerant reader

The tolerant reader gives back a written string with its stray bytes replaced, as
the strict one does (`Glimpse.ofText_writeString`). It finds the members of a
written object also between white space (`Glimpse.pick_write`), and the items of a
written array (`Glimpse.elements_write`).
-/

namespace ScanTriage

namespace Json

variable {html : Bool} {depth : Nat}

/-! ## Strings -/

namespace Glimpse

theorem unescape_stringBody (html : Bool) (s : Bytes) :
    unescape (stringBody html s) = Utf8.scrub s := by
  have hread := isBodyReader.read_stringBody html s le_rfl []
  rw [unescape_eq (isBody_stringBody html s)]
  exact (Prod.mk.inj (Option.some.inj hread)).1

theorem ofText_writeString (html : Bool) (s : Bytes) :
    ofText (writeString html s) = ⟨.string (Utf8.scrub s), writeString html s⟩ := by
  rw [writeString_eq, ofText_string (isBody_stringBody html s), ofBody, unescape_stringBody]
  rfl

end Glimpse

/-! ## Objects between white space -/

theorem ObjectText.exists_append (d : ObjectText) {ws : Bytes} (hws : Blank ws) :
    ∃ d' : ObjectText, d'.text = d.text ++ ws ∧ d'.view = d.view := by
  have hback : Blank (d.back ++ ws) := List.forall_mem_append.mpr ⟨d.back_blank, hws⟩
  refine ⟨{ d with back := d.back ++ ws, back_blank := hback }, ?_, rfl⟩
  have hinside : inside d.inner d.members (d.back ++ ws) =
      inside d.inner d.members d.back ++ ws := by
    cases d.members <;> simp [inside, tail]
  simp only [text, hinside, List.append_assoc, List.cons_append]

/-- The tolerant reader finds the members of a written object, whatever white
space follows it. -/
theorem Glimpse.pick_write (html : Bool) {members : List (Bytes × Json)} {ws : Bytes}
    (h : Fits depth (object members)) (hnames : members.all (fun m => isFieldName m.1) = true)
    (hws : Blank ws) (name : Bytes) :
    pick name (Glimpse.members (write html (object members) ++ ws)) =
      (members.lookup name).elim .missing fun value => .ofText (write html value) := by
  cases h with
  | object h =>
    obtain ⟨d, hd, hview⟩ := exists_objectText_write fun m hm => (h m hm).isValue_write html
    obtain ⟨d', hd', hview'⟩ := d.exists_append hws
    rw [← hd, ← hd', ← find, d'.find_text, hview', hview, rawValue?_written hnames]
    cases members.lookup name <;> rfl

/-! ## Arrays -/

theorem Glimpse.isArray_write (html : Bool) (items : List Json) :
    (ofText (write html (array items))).isArray = true := by
  rw [write_array, arrayText, ofText_container rfl]
  rfl

theorem Glimpse.elements_write (html : Bool) {items : List Json}
    (h : ∀ item ∈ items, Fits depth item) :
    (ofText (write html (array items))).elements =
      items.map fun item => ofText (write html item) := by
  have hvalues : ∀ v ∈ items.map (write html), IsValue v := by
    intro v hv
    obtain ⟨item, hitem, rfl⟩ := List.mem_map.mp hv
    exact (h item hitem).isValue_write html
  rw [write_array, elements_arrayText hvalues, List.map_map]
  rfl

end Json

end ScanTriage
