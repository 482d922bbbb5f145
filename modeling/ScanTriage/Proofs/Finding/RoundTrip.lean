import ScanTriage.Finding
import ScanTriage.Proofs.Json.Tolerant

/-!
# Reading written findings

A finding that was written, with or without sparing the characters of HTML, is
read back with the stray bytes of its texts replaced (`Finding.ofGlimpse_write`):
the tolerant reader undoes every escape and every numeral, and takes what was
left out as empty. A list of findings is read back in its order
(`Finding.listOfReport?_bareReport`).
-/

namespace ScanTriage

open Json (Blank Fits Glimpse isFieldName)

variable {html : Bool}

theorem Flag.ofGlimpse_write (flag : Flag) :
    ofGlimpse (.ofText (flag.toJson.write html)) = flag := by
  cases flag <;> rfl

theorem Flag.fits_toJson (depth : Nat) (flag : Flag) : Fits depth flag.toJson := by
  cases flag with
  | unknown => exact .null
  | no => exact .bool false
  | yes => exact .bool true

theorem lineNumber_write (n : Int64) : lineNumber (.ofText ((Json.int n).write html)) = n := by
  rw [Json.int, Json.write, Glimpse.ofText_decimalInt64]
  exact Glimpse.numberToInt_decimalInt64 n

theorem text_write (s : Bytes) :
    (Glimpse.ofText ((Json.string s).write html)).text = Utf8.scrub s := by
  rw [Json.write, Glimpse.ofText_writeString]
  rfl

/-! ## Snippets -/

namespace Snippet

def scrubbed (s : Snippet) : Snippet := { s with code := Utf8.scrub s.code }

theorem fits_toJson (depth : Nat) (s : Snippet) : Fits (depth + 1) s.toJson := by
  refine .object fun m hm => ?_
  obtain ⟨_, hm, rfl⟩ := List.mem_filterMap.mp hm
  simp only [List.mem_cons, List.not_mem_nil, or_false] at hm
  rcases hm with hm | hm
  · split at hm <;> cases hm
    exact .int _
  · cases hm
    exact .string _

theorem pick_write (html : Bool) (s : Snippet) :
    lineNumber (Glimpse.pick "line" (Glimpse.members (s.toJson.write html))) = s.line ∧
      (Glimpse.pick "code" (Glimpse.members (s.toJson.write html))).text = Utf8.scrub s.code := by
  have hfits := s.fits_toJson 0
  rw [← List.append_nil (s.toJson.write html)]
  unfold toJson Json.record at hfits ⊢
  by_cases hline : s.line = 0
  · simp only [hline, beq_self_eq_true, if_true] at hfits ⊢
    rw [Glimpse.pick_write html hfits rfl Blank.nil, Glimpse.pick_write html hfits rfl Blank.nil]
    exact ⟨rfl, text_write s.code⟩
  · simp only [beq_eq_false_iff_ne.mpr hline, Bool.false_eq_true, if_false] at hfits ⊢
    rw [Glimpse.pick_write html hfits rfl Blank.nil, Glimpse.pick_write html hfits rfl Blank.nil]
    exact ⟨lineNumber_write s.line, text_write s.code⟩

theorem ofGlimpse_write (html : Bool) (s : Snippet) :
    ofGlimpse (.ofText (s.toJson.write html)) = s.scrubbed := by
  have hread : Glimpse.ofText (s.toJson.write html) = ⟨.nested, s.toJson.write html⟩ :=
    Glimpse.ofText_container rfl
  obtain ⟨hline, hcode⟩ := s.pick_write html
  rw [hread, ofGlimpse, Glimpse.get, Glimpse.find, Glimpse.get, Glimpse.find, hline, hcode]
  rfl

end Snippet

namespace Finding

def scrubbed (f : Finding) : Finding :=
  { f with
    id := Utf8.scrub f.id
    file := Utf8.scrub f.file
    message := Utf8.scrub f.message
    code := Utf8.scrub f.code
    context := f.context.map Snippet.scrubbed }

def texts (f : Finding) : List Bytes :=
  f.id :: f.file :: f.message :: f.code :: f.context.map (·.code)

theorem scrubbed_of_isValid {f : Finding} (h : ∀ s ∈ f.texts, Utf8.isValid s = true) :
    f.scrubbed = f := by
  simp only [texts, List.forall_mem_cons, List.forall_mem_map] at h
  obtain ⟨hid, hfile, hmessage, hcode, hcontext⟩ := h
  have hcontext : f.context.map Snippet.scrubbed = f.context := by
    refine (List.map_congr_left fun s hs => ?_).trans (List.map_id' f.context)
    rw [Snippet.scrubbed, Utf8.scrub_of_isValid (hcontext s hs)]
  rw [scrubbed, Utf8.scrub_of_isValid hid, Utf8.scrub_of_isValid hfile,
    Utf8.scrub_of_isValid hmessage, Utf8.scrub_of_isValid hcode, hcontext]

theorem fits_toJson (f : Finding) : Fits 3 f.toJson := by
  refine .object fun m hm => ?_
  obtain ⟨_, hm, rfl⟩ := List.mem_filterMap.mp hm
  simp only [List.mem_cons, List.not_mem_nil, or_false] at hm
  rcases hm with hm | hm | hm | hm | hm | hm | hm | hm
  · cases hm; exact .string _
  · cases hm; exact .string _
  · cases hm; exact .int _
  · cases hm; exact .string _
  · cases hm; exact .string _
  · split at hm <;> cases hm
    refine .array fun item hitem => ?_
    obtain ⟨s, -, rfl⟩ := List.mem_map.mp hitem
    exact s.fits_toJson 0
  · cases hm; exact f.guarded.fits_toJson 2
  · cases hm; exact f.sanitized.fits_toJson 2

theorem member?_toJson (f : Finding) :
    f.toJson.member? "id" = some (.string f.id) ∧
      f.toJson.member? "file" = some (.string f.file) ∧
      f.toJson.member? "line" = some (.int f.line) ∧
      f.toJson.member? "message" = some (.string f.message) ∧
      f.toJson.member? "code" = some (.string f.code) ∧
      f.toJson.member? "context" = (if f.context.isEmpty then none
        else some (.array (f.context.map Snippet.toJson))) ∧
      f.toJson.member? "guarded" = some f.guarded.toJson ∧
      f.toJson.member? "sanitized" = some f.sanitized.toJson := by
  unfold toJson
  split <;> exact ⟨rfl, rfl, rfl, rfl, rfl, rfl, rfl, rfl⟩

theorem pick_write (html : Bool) (f : Finding) {ws : Bytes} (hws : Blank ws) (name : Bytes) :
    Glimpse.pick name (Glimpse.members (f.toJson.write html ++ ws)) =
      (f.toJson.member? name).elim .missing fun value => .ofText (value.write html) := by
  refine Glimpse.pick_write html f.fits_toJson ?_ hws name
  split <;> rfl

/-- The snippets of a written context. A context that was left out has none. -/
theorem context_write (html : Bool) (f : Finding) {ws : Bytes} (hws : Blank ws) {found : Glimpse}
    (hfound : Glimpse.pick "context" (Glimpse.members (f.toJson.write html ++ ws)) = found) :
    (if found.isArray then found.elements.map Snippet.ofGlimpse else []) =
      f.context.map Snippet.scrubbed := by
  obtain ⟨-, -, -, -, -, hcontext, -⟩ := f.member?_toJson
  have hfits : ∀ item ∈ f.context.map Snippet.toJson, Fits 1 item := by
    intro item hitem
    obtain ⟨s, -, rfl⟩ := List.mem_map.mp hitem
    exact s.fits_toJson 0
  rw [f.pick_write html hws, hcontext] at hfound
  by_cases hempty : f.context = []
  · subst hfound
    rw [hempty]
    rfl
  · rw [if_neg (by simpa using hempty), Option.elim_some] at hfound
    subst hfound
    rw [if_pos (Glimpse.isArray_write ..), Glimpse.elements_write html hfits, List.map_map,
      List.map_map]
    exact List.map_congr_left fun s _ => s.ofGlimpse_write html

/-- A finding is read back from its written form, whatever white space follows. -/
theorem ofGlimpse_write (html : Bool) (f : Finding) {ws : Bytes} (hws : Blank ws) :
    ofGlimpse ⟨.nested, f.toJson.write html ++ ws⟩ = f.scrubbed := by
  have hobject : Glimpse.isObject ⟨.nested, f.toJson.write html ++ ws⟩ = true := rfl
  have hsnippets := f.context_write html hws rfl
  obtain ⟨hid, hfile, hline, hmessage, hcode, -, hguarded, hsanitized⟩ := f.member?_toJson
  rw [ofGlimpse, if_pos hobject]
  simp only [hsnippets]
  simp only [f.pick_write html hws, hid, hfile, hline, hmessage, hcode, hguarded, hsanitized,
    Option.elim_some, text_write, lineNumber_write, Flag.ofGlimpse_write]
  rfl

theorem ofText_write (html : Bool) (f : Finding) {front back : Bytes} (hfront : Blank front)
    (hback : Blank back) : ofText (front ++ f.toJson.write html ++ back) = f.scrubbed := by
  have hread : Glimpse.ofText (f.toJson.write html ++ back) =
      ⟨.nested, f.toJson.write html ++ back⟩ := Glimpse.ofText_container rfl
  rw [ofText, List.append_assoc, Glimpse.ofText_blank hfront, hread, f.ofGlimpse_write html hback]

/-! ## Reports -/

/-- A report that holds nothing but findings, with white space around their
text. -/
def bareReport (front findings back : Bytes) : Bytes :=
  "\x7b\"findings\":" ++ front ++ findings ++ back ++ "\x7d"

theorem find_bareReport {front findings back : Bytes} (hfront : Blank front)
    (hfindings : Json.IsValue findings) (hback : Blank back) :
    Glimpse.find "findings" (bareReport front findings back) = .ofText findings := by
  have hbody : Json.StringBody "findings" := by
    rw [← Json.stringBody_fieldName (by decide : isFieldName "findings" = true) false]
    exact Json.isBody_stringBody ..
  let m : Json.MemberText := ⟨[], "findings", [], front, findings, back, Blank.nil, hbody,
    Blank.nil, hfront, hfindings, hback⟩
  let d : Json.ObjectText := ⟨[], [], [m], [], Blank.nil, Blank.nil, Blank.nil⟩
  have htext : d.text = bareReport front findings back := by
    have hopen : ("\x7b\"findings\":" : Bytes) = Bytes.openBrace :: Bytes.quote ::
        (("findings" : Bytes) ++ [Bytes.quote, Bytes.colon]) := by decide
    have hclose : ("\x7d" : Bytes) = [Bytes.closeBrace] := by decide
    rw [bareReport, hopen, hclose]
    simp [d, m, Json.ObjectText.text, Json.ObjectText.inside, Json.MemberText.text]
  have hself : Glimpse.unescape "findings" = "findings" := by decide
  have hname : Json.nameOf m.rawName = "findings" := m.nameOf_rawName.trans hself
  rw [← htext, d.find_text]
  simp [d, m, Json.ObjectText.view, Json.MemberText.view, Json.rawValue?, hname]

theorem fits_listToJson (findings? : Option (List Finding)) : Fits 4 (listToJson findings?) := by
  cases findings? with
  | none => exact .null
  | some findings =>
    refine .array fun item hitem => ?_
    obtain ⟨f, -, rfl⟩ := List.mem_map.mp hitem
    exact f.fits_toJson

theorem listOfReport?_bareReport (html : Bool) (findings? : Option (List Finding))
    {front back : Bytes} (hfront : Blank front) (hback : Blank back) :
    listOfReport? (bareReport front ((listToJson findings?).write html) back) =
      findings?.map (·.map scrubbed) := by
  have hfits := fits_listToJson findings?
  rw [listOfReport?, find_bareReport hfront (hfits.isValue_write html) hback]
  cases findings? with
  | none => rfl
  | some findings =>
    have hread : ∀ f : Finding, ofGlimpse (.ofText (f.toJson.write html)) = f.scrubbed := by
      intro f
      rw [← ofText, ← List.append_nil (f.toJson.write html)]
      exact f.ofText_write html Blank.nil Blank.nil
    cases hfits with
    | array hfits =>
      have hlist : listToJson (some findings) = .array (findings.map toJson) := rfl
      rw [hlist, if_pos (Glimpse.isArray_write ..), Glimpse.elements_write html hfits, List.map_map,
        List.map_map, Option.map_some]
      exact congrArg some (List.map_congr_left fun f _ => hread f)

/-- Reading undoes writing. A written finding, with white space around it, is
read back with its stray bytes replaced, so a finding of well-formed texts is
read back as it was; and the findings of a report are those that were written, in
their order. -/
theorem read_written (html : Bool) {front back : Bytes} (hfront : Blank front)
    (hback : Blank back) :
    (∀ f : Finding, ofText (front ++ f.toJson.write html ++ back) = f.scrubbed ∧
      ((∀ s ∈ f.texts, Utf8.isValid s = true) →
        ofText (front ++ f.toJson.write html ++ back) = f)) ∧
    (∀ findings? : Option (List Finding),
      listOfReport? (bareReport front ((listToJson findings?).write html) back) =
        findings?.map (·.map scrubbed)) ∧
    ∀ findings : List Finding, (∀ f ∈ findings, ∀ s ∈ f.texts, Utf8.isValid s = true) →
      listOfReport? (bareReport front ((listToJson (some findings)).write html) back) =
        some findings := by
  refine ⟨fun f => ⟨f.ofText_write html hfront hback, fun h => ?_⟩,
    fun findings? => listOfReport?_bareReport html findings? hfront hback, fun findings h => ?_⟩
  · rw [f.ofText_write html hfront hback, scrubbed_of_isValid h]
  · have hself : findings.map scrubbed = findings :=
      (List.map_congr_left fun f hf => scrubbed_of_isValid (h f hf)).trans (List.map_id' findings)
    rw [listOfReport?_bareReport html (some findings) hfront hback, Option.map_some, hself]

/-- A finding whose texts need every kind of escape, at the ends of the range of
line numbers. -/
def awkward : Finding where
  id := "a\"b\\"
  file := "<&>\u2028\u0001"
  line := Int64.minValue
  message := "\t\u00e9😀"
  code := "\\u0041\\"
  context := [⟨0, "\r\n"⟩, ⟨Int64.maxValue, ""⟩]
  guarded := .no

theorem read_written_awkward :
    Blank [Bytes.space] ∧ Blank [Bytes.newline] ∧
      (∀ s ∈ awkward.texts, Utf8.isValid s = true) ∧
      ofText ([Bytes.space] ++ awkward.toJson.write true ++ [Bytes.newline]) = awkward ∧
      listOfReport? (bareReport [Bytes.space]
          ((listToJson (some [awkward, { code := [0x61, 0xFF, 0xC3] }])).write true)
          [Bytes.newline]) =
        some [awkward, { code := "a\ufffd\ufffd" }] := by
  have hspace : Blank [Bytes.space] := List.forall_mem_singleton.mpr rfl
  have hnewline : Blank [Bytes.newline] := List.forall_mem_singleton.mpr rfl
  have htexts : ∀ s ∈ awkward.texts, Utf8.isValid s = true := by decide
  obtain ⟨hfinding, hreport, -⟩ := read_written true hspace hnewline
  refine ⟨hspace, hnewline, htexts, (hfinding awkward).2 htexts, ?_⟩
  rw [hreport]
  decide

end Finding

end ScanTriage
