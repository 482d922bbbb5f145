import ScanTriage.History.Store
import ScanTriage.Proofs.Annotate.Decoded
import ScanTriage.Proofs.Text.Space

/-!
# Records and their lines

The line of a record is read back as the record (`ofLine?_toLine`) if its texts
are well-formed. It holds no control character (`isPrintable_toLine`) and has
nothing to trim, so it stays one line of a file.
-/

namespace ScanTriage

open Json (Fits)

/-! ## Written values hold no control characters -/

namespace Json

def IsPrintable (s : Bytes) : Prop := ∀ b ∈ s, ¬ b < 0x20

theorem IsPrintable.nil : IsPrintable [] := fun _ hb => absurd hb List.not_mem_nil

theorem IsPrintable.append {s t : Bytes} (hs : IsPrintable s) (ht : IsPrintable t) :
    IsPrintable (s ++ t) :=
  fun b hb => (List.mem_append.mp hb).elim (hs b) (ht b)

theorem IsPrintable.cons {b : UInt8} {s : Bytes} (hb : ¬ b < 0x20) (hs : IsPrintable s) :
    IsPrintable (b :: s) :=
  List.forall_mem_cons.mpr ⟨hb, hs⟩

theorem isPrintable_of_all {s : Bytes} (h : s.all (fun b => !decide (b < 0x20)) = true) :
    IsPrintable s := by
  simpa [IsPrintable] using h

theorem StringBody.isPrintable {s : Bytes} (h : StringBody s) : IsPrintable s := by
  have hshort : ∀ e : UInt8, (shortEscape? e).isSome = true → ¬ e < 0x20 := by
    intro e he
    grind [shortEscape?]
  have hhex : ∀ b : UInt8, (Bytes.hexValue? b).isSome = true → ¬ b < 0x20 := by
    intro b hb
    grind [Bytes.hexValue?, Bytes.digitValue?, Bytes.isDigit, Bytes.isLower, Bytes.isUpper]
  induction h with
  | nil => exact .nil
  | plain _ _ hspace _ ih => exact .cons hspace ih
  | short he _ ih => exact .cons (by decide) (.cons (hshort _ he) ih)
  | unicode hex _ ih =>
    simp only [List.forall_mem_cons] at hex
    obtain ⟨h₁, h₂, h₃, h₄, -⟩ := hex
    exact .cons (by decide) (.cons (by decide) (.cons (hhex _ h₁) (.cons (hhex _ h₂)
      (.cons (hhex _ h₃) (.cons (hhex _ h₄) ih)))))

theorem isPrintable_writeString (html : Bool) (s : Bytes) : IsPrintable (writeString html s) := by
  rw [writeString_eq]
  exact .cons (by decide) ((isBody_stringBody html s).isPrintable.append (.cons (by decide) .nil))

theorem isPrintable_separated {ts : List Bytes} (h : ∀ t ∈ ts, IsPrintable t) :
    IsPrintable (separated ts) := by
  cases ts with
  | nil => exact .nil
  | cons t ts =>
    rw [List.forall_mem_cons] at h
    refine h.1.append fun b hb => ?_
    obtain ⟨u, hu, hb⟩ := List.mem_flatMap.mp hb
    exact (IsPrintable.cons (by decide) (h.2 u hu)) b hb

theorem Fits.isPrintable_write {depth : Nat} {j : Json} (h : Fits depth j) (html : Bool) :
    IsPrintable (write html j) := by
  induction h with
  | null => exact isPrintable_of_all (s := "null") (by decide)
  | bool b =>
    cases b with
    | true => exact isPrintable_of_all (s := "true") (by decide)
    | false => exact isPrintable_of_all (s := "false") (by decide)
  | int n =>
    have hdigits : ∀ k, IsPrintable (Bytes.decimal k) := fun k b hb => by
      have hdigit := Bytes.isDigit_decimal k b hb
      grind [Bytes.isDigit]
    change IsPrintable (Bytes.decimalInt64 n)
    rcases Integer.decimalInt64_cases n with ⟨k, -, -, hn⟩ | ⟨k, -, -, -, hn⟩ <;> rw [hn]
    · exact hdigits k
    · exact .cons (by decide) (hdigits k)
  | string s => exact isPrintable_writeString html s
  | array _ ih =>
    rw [write, writeItems_eq]
    refine .cons (by decide) (.append (isPrintable_separated fun t ht => ?_)
      (.cons (by decide) .nil))
    obtain ⟨item, hitem, rfl⟩ := List.mem_map.mp ht
    exact ih item hitem
  | object _ ih =>
    rw [write, writeMembers_eq]
    refine .cons (by decide) (.append (isPrintable_separated fun t ht => ?_)
      (.cons (by decide) .nil))
    obtain ⟨m, hm, rfl⟩ := List.mem_map.mp ht
    exact (isPrintable_writeString html m.1).append (.cons (by decide) (ih m hm))

end Json

/-! ## The table per identifier -/

namespace SortedTable

variable {α : Type}

/-- A key above all others goes to the end. -/
theorem set_eq_append {key : Bytes} {table : SortedTable α} (value : α)
    (h : ∀ x ∈ table, x.1 < key) : set key value table = table ++ [(key, value)] := by
  induction table with
  | nil => rfl
  | cons x table ih =>
    obtain ⟨k, v⟩ := x
    rw [List.forall_mem_cons] at h
    have hne : k ≠ key := fun hk => List.lt_irrefl key (hk ▸ h.1)
    have hlt : ¬ key < k := List.lt_asymm h.1
    have hrest := ih h.2
    rw [set] at hrest
    rw [set, update, if_neg (by simpa using hne), if_neg (by simpa using hlt), hrest]
    rfl

end SortedTable

namespace HistoryRecord

variable {r : HistoryRecord}

theorem readCounts_toJson (c : IdCounts) : readCounts c.toJson.scrubbed = some c := by
  simp +decide [IdCounts.toJson, readCounts, readObject, Json.scrubbed, Json.scrubbedMembers,
    readInt_int]

theorem readById_toJson {table : SortedTable IdCounts} (hids : ∀ x ∈ table, Utf8.isValid x.1 = true)
    (hsorted : table.Pairwise fun x y => x.1 < y.1) :
    readById [] (Json.object (table.map fun (id, counts) => (id, counts.toJson))).scrubbed =
      some table := by
  have hfold : ∀ (rest done : SortedTable IdCounts), (∀ x ∈ rest, Utf8.isValid x.1 = true) →
      rest.Pairwise (fun x y => x.1 < y.1) → (∀ x ∈ done, ∀ y ∈ rest, x.1 < y.1) →
      (Json.scrubbedMembers (rest.map fun (id, counts) => (id, counts.toJson))).foldlM
        (fun table m => (readCounts m.2).map fun counts => SortedTable.set m.1 counts table)
        done = some (done ++ rest) := by
    intro rest
    induction rest with
    | nil => simp [Json.scrubbedMembers]
    | cons x rest ih =>
      intro done hids hsorted hdone
      obtain ⟨id, counts⟩ := x
      rw [List.forall_mem_cons] at hids
      rw [List.pairwise_cons] at hsorted
      have hset : SortedTable.set id counts done = done ++ [(id, counts)] :=
        SortedTable.set_eq_append counts fun x hx => hdone x hx _ List.mem_cons_self
      have hnext := ih (done ++ [(id, counts)]) hids.2 hsorted.2 fun x hx y hy => by
        rcases List.mem_append.mp hx with hx | hx
        · exact hdone x hx y (List.mem_cons_of_mem _ hy)
        · rw [List.mem_singleton.mp hx]
          exact hsorted.1 y hy
      rw [List.map_cons, Json.scrubbedMembers, List.foldlM_cons]
      simp only [readCounts_toJson, Utf8.scrub_of_isValid hids.1, Option.map_some, hset]
      simpa using hnext
  rw [Json.scrubbed, readById]
  exact hfold table [] hids hsorted (fun x hx => by cases hx)

/-- A record that a line can hold: its texts are well-formed, its table is in
order, and the line is not too long. -/
@[mk_iff]
structure IsStorable (r : HistoryRecord) : Prop where
  runId : Utf8.isValid r.runId = true
  timestamp : Utf8.isValid r.timestamp = true
  report : Utf8.isValid r.report = true
  toolVersion : Utf8.isValid r.toolVersion = true
  confidence : Utf8.isValid r.summary.confidence.label = true
  ids : ∀ x ∈ r.byId, Utf8.isValid x.1 = true
  sorted : r.byId.Pairwise fun x y => x.1 < y.1
  short : r.toLine.length < History.maxLine

instance (r : HistoryRecord) : Decidable r.IsStorable := decidable_of_iff' _ (isStorable_iff r)

theorem fits_toJson (r : HistoryRecord) : Fits 3 r.toJson := by
  refine .object fun m hm => ?_
  obtain ⟨_, hm, rfl⟩ := List.mem_filterMap.mp hm
  simp only [List.mem_cons, List.not_mem_nil, or_false, Option.some.injEq] at hm
  rcases hm with rfl | rfl | rfl | hm | rfl | rfl | rfl | rfl | rfl | hm
  · exact .string _
  · exact .string _
  · exact .string _
  · split at hm
    · cases hm
    · cases hm
      exact .string _
  · exact .int _
  · exact .int _
  · exact .int _
  · exact r.summary.fits_toJson 1
  · exact r.breakdown.fits_toJson 1
  · split at hm
    · cases hm
    · cases hm
      refine .object fun m hm => ?_
      obtain ⟨x, -, rfl⟩ := List.mem_map.mp hm
      refine .object ?_
      simp only [List.forall_mem_cons]
      exact ⟨.int _, .int _, .int _, List.forall_mem_nil _⟩

theorem scrubbed_summary (h : Utf8.isValid r.summary.confidence.label = true) :
    r.summary.scrubbed = r.summary := by
  have hconfidence : ∀ c : Confidence, Confidence.ofLabel c.label = c := by
    intro c
    cases c with
    | other label unknown => simp [Confidence.label, Confidence.ofLabel, unknown]
    | _ => rfl
  rw [Summary.scrubbed, ← Confidence.ofLabel_scrub, Utf8.scrub_of_isValid h, hconfidence]

theorem ofJson?_toJson (h : r.IsStorable) : ofJson? r.toJson.scrubbed = some r := by
  have hids := readById_toJson h.ids h.sorted
  have hsummary := fun old => (readSummary_toJson old r.summary).trans
    (congrArg some (scrubbed_summary h.confidence))
  rw [Json.scrubbed] at hids
  -- The version and the table are only written if they are not empty.
  by_cases hversion : r.toolVersion = [] <;> by_cases htable : r.byId = [] <;>
    simp +decide [HistoryRecord.toJson, Json.record, hversion, htable, ofJson?, readObject,
      Json.scrubbed, Json.scrubbedMembers, readText, readInt_int, hsummary, readBreakdown_toJson,
      hids, Utf8.scrub_of_isValid, h.runId, h.timestamp, h.report, h.toolVersion]
  · rw [← hversion, ← htable]
  · rw [← hversion]
  · rw [← htable]

/-- The line of a record is read back as the record. -/
theorem ofLine?_toLine (h : r.IsStorable) : ofLine? r.toLine = some r := by
  rw [ofLine?, toLine, Json.read?_write r.fits_toJson (by decide)]
  exact ofJson?_toJson h

/-! ## Lines -/

theorem isPrintable_toLine (r : HistoryRecord) : Json.IsPrintable r.toLine :=
  r.fits_toJson.isPrintable_write true

theorem toLine_eq (r : HistoryRecord) :
    ∃ body, r.toLine = Bytes.openBrace :: (body ++ [Bytes.closeBrace]) :=
  ⟨_, rfl⟩

theorem newline_not_mem_toLine (r : HistoryRecord) : Bytes.newline ∉ r.toLine :=
  fun h => r.isPrintable_toLine _ h (by decide)

theorem trim_toLine (r : HistoryRecord) : Text.trim r.toLine = r.toLine := by
  obtain ⟨body, hbody⟩ := r.toLine_eq
  rw [hbody]
  exact Text.trim_enclosed (by decide) (by decide) (by decide) (by decide) body

end HistoryRecord

end ScanTriage
