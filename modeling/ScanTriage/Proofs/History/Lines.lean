import ScanTriage.Proofs.History.Record

/-!
# Lines of records

A file that ends with a newline, or is empty, can be continued: its lines stay
as they are (`lines?_append`). Blanks behind its last newline come to stand in
front of the record that is added (`lines?_takesLine`). Reading lines that were
written again may drop carriage returns, but not a record: what lines hold depends
on the trimmed lines only (`parsed?_reread`).
-/

namespace ScanTriage

namespace History

/-! ## Splitting into lines -/

/-- A text whose last line is complete. -/
def IsWhole (s : Bytes) : Prop := s = [] ∨ s.getLast? = some Bytes.newline

theorem linesOnto_acc (s line : Bytes) (size : Nat) (acc : List Bytes) :
    linesOnto s line size acc = (linesOnto s line size []).map (acc.reverse ++ ·) := by
  induction s generalizing line size acc with
  | nil =>
    rw [linesOnto, linesOnto]
    split
    · simp
    split
    · rfl
    · simp
  | cons b s ih =>
    rw [linesOnto, linesOnto]
    split
    · split
      · rfl
      · rw [ih, ih [] 0 [finishLine line], Option.map_map]
        congr 1
        funext ls
        simp
    · exact ih (b :: line) (size + 1) acc

/-- The lines of a text that continues a whole one. -/
theorem lines?_append {a : Bytes} (ha : IsWhole a) (b : Bytes) :
    lines? (a ++ b) = (lines? a).bind fun ls => (lines? b).map (ls ++ ·) := by
  have honto : ∀ (a : Bytes) (line : Bytes) (size : Nat), a.getLast? = some Bytes.newline →
      linesOnto (a ++ b) line size [] =
        (linesOnto a line size []).bind fun ls => (lines? b).map (ls ++ ·) := by
    intro a
    induction a with
    | nil => exact fun _ _ h => by cases h
    | cons c a ih =>
      intro line size hlast
      rw [List.cons_append, linesOnto, linesOnto]
      by_cases ha : a = []
      · subst ha
        have hc : c = Bytes.newline := by simpa using hlast
        subst hc
        simp only [beq_self_eq_true, if_true, List.nil_append]
        split
        · rfl
        · rw [linesOnto_acc]
          rfl
      · have hlast' : a.getLast? = some Bytes.newline := by
          rwa [List.getLast?_cons_of_ne_nil ha] at hlast
        split
        · split
          · rfl
          · rw [linesOnto_acc, ih [] 0 hlast', linesOnto_acc a [] 0 [finishLine line]]
            cases linesOnto a [] 0 [] <;> cases lines? b <;> simp
        · exact ih (c :: line) (size + 1) hlast'
  rcases ha with rfl | ha
  · simp [lines?, linesOnto]
  · exact honto a [] 0 ha

def IsLine (l : Bytes) : Prop :=
  ∃ body, l = body ++ [Bytes.newline] ∧ Bytes.newline ∉ body ∧ body.length < maxLine

/-- A line as it is read back: without a carriage return at its end. -/
def reread (l : Bytes) : Bytes := finishLine l.dropLast.reverse

theorem lines?_line {l : Bytes} (h : IsLine l) : lines? l = some [reread l] := by
  obtain ⟨body, rfl, hbody, hlength⟩ := h
  have honto : ∀ (body line : Bytes) (size : Nat), Bytes.newline ∉ body →
      body.length + size < maxLine →
      linesOnto (body ++ [Bytes.newline]) line size [] =
        some [finishLine (body.reverse ++ line)] := by
    intro body
    induction body with
    | nil =>
      intro line size _ hsize
      have hshort : ¬ maxLine ≤ size := by simpa using hsize
      simp [linesOnto, hshort]
    | cons b body ih =>
      intro line size hbody hsize
      rw [List.mem_cons, not_or] at hbody
      rw [List.length_cons] at hsize
      rw [List.cons_append, linesOnto, if_neg (by simpa using Ne.symm hbody.1),
        ih (b :: line) (size + 1) hbody.2 (by omega)]
      simp
  rw [lines?, honto body [] 0 hbody (by omega)]
  simp [reread]

theorem lines?_body {body : Bytes} (hne : body ≠ []) (hbody : Bytes.newline ∉ body)
    (hlength : body.length < maxLine) : lines? body = some [finishLine body.reverse] := by
  have honto : ∀ (body line : Bytes) (size : Nat), Bytes.newline ∉ body →
      0 < body.length + size → body.length + size < maxLine →
      linesOnto body line size [] = some [finishLine (body.reverse ++ line)] := by
    intro body
    induction body with
    | nil =>
      intro line size _ hpos hsize
      rw [List.length_nil, Nat.zero_add] at hpos hsize
      have hsome : size ≠ 0 := by omega
      simp [linesOnto, hsome, Nat.not_le.mpr hsize]
    | cons b body ih =>
      intro line size hbody hpos hsize
      rw [List.mem_cons, not_or] at hbody
      rw [List.length_cons] at hsize
      rw [linesOnto, if_neg (by simpa using Ne.symm hbody.1),
        ih (b :: line) (size + 1) hbody.2 (by omega) (by omega)]
      simp
  rw [lines?, honto body [] 0 hbody (List.length_pos_of_ne_nil hne) hlength, List.append_nil]

theorem isWhole_line {l : Bytes} (h : IsLine l) : IsWhole l := by
  obtain ⟨body, rfl, -⟩ := h
  exact .inr (by simp)

theorem finishLine_return (rest : Bytes) :
    finishLine (Bytes.carriageReturn :: rest) = rest.reverse ++ [Bytes.newline] :=
  List.reverse_cons

theorem finishLine_other {line : Bytes} (h : line.head? ≠ some Bytes.carriageReturn) :
    finishLine line = line.reverse ++ [Bytes.newline] := by
  unfold finishLine
  split
  · exact absurd rfl h
  · exact List.reverse_cons

/-- A line is finished with or without a carriage return. -/
theorem finishLine_cases (line : Bytes) :
    (∃ rest, line = Bytes.carriageReturn :: rest ∧
        finishLine line = rest.reverse ++ [Bytes.newline]) ∨
      finishLine line = line.reverse ++ [Bytes.newline] := by
  by_cases h : line.head? = some Bytes.carriageReturn
  · obtain ⟨rest, rfl⟩ := List.head?_eq_some_iff.mp h
    exact .inl ⟨rest, rfl, finishLine_return rest⟩
  · exact .inr (finishLine_other h)

theorem isLine_finishLine {line : Bytes} (hline : Bytes.newline ∉ line)
    (hlength : line.length < maxLine) : IsLine (finishLine line) := by
  obtain ⟨rest, rfl, hfinish⟩ | hfinish := finishLine_cases line <;> rw [hfinish]
  · rw [List.length_cons] at hlength
    exact ⟨rest.reverse, rfl, by simpa using fun h => hline (List.mem_cons_of_mem _ h),
      by rw [List.length_reverse]; omega⟩
  · exact ⟨line.reverse, rfl, by simpa using hline, by simpa using hlength⟩

theorem isLine_of_mem_lines? {s : Bytes} {ls : List Bytes} (h : lines? s = some ls) :
    ∀ l ∈ ls, IsLine l := by
  have honto : ∀ (s line : Bytes) (acc ls : List Bytes), Bytes.newline ∉ line →
      (∀ l ∈ acc, IsLine l) → linesOnto s line line.length acc = some ls → ∀ l ∈ ls, IsLine l := by
    intro s
    induction s with
    | nil =>
      intro line acc ls hline hacc h
      rw [linesOnto] at h
      split at h
      · cases h
        simpa using hacc
      split at h
      · cases h
      · next hlength =>
        cases h
        intro l hl
        rw [List.mem_reverse] at hl
        exact List.forall_mem_cons.mpr ⟨isLine_finishLine hline (by omega), hacc⟩ l hl
    | cons b s ih =>
      intro line acc ls hline hacc h
      rw [linesOnto] at h
      split at h
      · split at h
        · cases h
        · next hlength =>
          refine ih [] _ ls (by simp) ?_ h
          exact List.forall_mem_cons.mpr ⟨isLine_finishLine hline (by omega), hacc⟩
      · next hb =>
        refine ih (b :: line) acc ls ?_ hacc h
        rw [List.mem_cons, not_or]
        exact ⟨fun h => hb (by simp [h]), hline⟩
  exact honto s [] [] ls (by simp) (by simp) h

theorem lines?_flatten {ls : List Bytes} (h : ∀ l ∈ ls, IsLine l) :
    lines? ls.flatten = some (ls.map reread) := by
  induction ls with
  | nil => rfl
  | cons l ls ih =>
    rw [List.forall_mem_cons] at h
    rw [List.flatten_cons, lines?_append (isWhole_line h.1), lines?_line h.1, ih h.2]
    rfl

/-! ## The records of lines -/

/-- The records of one line: none if it is blank. -/
def lineRecords? (line : Bytes) : Option (List HistoryRecord) :=
  if (Text.trim line).isEmpty then some []
  else (HistoryRecord.ofLine? (Text.trim line)).map ([·])

/-- The records of lines; nothing if one of the lines holds something else. -/
def parsed? : List Bytes → Option (List HistoryRecord)
  | [] => some []
  | line :: rest => (lineRecords? line).bind fun first => (parsed? rest).map (first ++ ·)

theorem parse_eq_ok {lines : List Bytes} {rs : List HistoryRecord} :
    parse lines = .ok rs ↔ parsed? lines = some rs := by
  have hfrom : ∀ (lines : List Bytes) (number : Nat) (acc : List HistoryRecord),
      parseFrom number lines acc = .ok rs ↔ (parsed? lines).map (acc.reverse ++ ·) = some rs := by
    intro lines
    induction lines with
    | nil => simp [parseFrom, parsed?]
    | cons line lines ih =>
      intro number acc
      rw [parseFrom, parsed?, lineRecords?]
      split
      · simp [ih]
      · split
        · next r hr => simp [hr, ih, Function.comp_def]
        · next hr => simp [hr]
  rw [parse, hfrom]
  simp

theorem parsed?_append (a b : List Bytes) :
    parsed? (a ++ b) = (parsed? a).bind fun x => (parsed? b).map (x ++ ·) := by
  induction a with
  | nil => simp [parsed?]
  | cons line a ih =>
    rw [List.cons_append, parsed?, parsed?, ih]
    cases lineRecords? line <;> cases parsed? a <;> cases parsed? b <;> simp

theorem parsed?_append_eq_some {a b : List Bytes} {rs : List HistoryRecord} :
    parsed? (a ++ b) = some rs ↔
      ∃ x y, parsed? a = some x ∧ parsed? b = some y ∧ rs = x ++ y := by
  rw [parsed?_append]
  simp only [Option.bind_eq_some_iff, Option.map_eq_some_iff]
  constructor
  · rintro ⟨x, hx, y, hy, rfl⟩
    exact ⟨x, y, hx, hy, rfl⟩
  · rintro ⟨x, y, hx, hy, rfl⟩
    exact ⟨x, hx, y, hy, rfl⟩

/-- What a finished line holds does not depend on how it ended. -/
theorem trim_finishLine (line : Bytes) : Text.trim (finishLine line) = Text.trim line.reverse := by
  have hnewline : Text.IsSpaceByte Bytes.newline := ⟨by decide, by decide⟩
  have hreturn : Text.IsSpaceByte Bytes.carriageReturn := ⟨by decide, by decide⟩
  obtain ⟨rest, rfl, hfinish⟩ | hfinish := finishLine_cases line <;>
    rw [hfinish, Text.trim_append_space hnewline]
  rw [List.reverse_cons, Text.trim_append_space hreturn]

theorem parsed?_reread {ls : List Bytes} (h : ∀ l ∈ ls, IsLine l) :
    parsed? (ls.map reread) = parsed? ls := by
  have htrim : ∀ l, IsLine l → Text.trim (reread l) = Text.trim l := by
    rintro l ⟨body, rfl, -⟩
    have hnewline : Text.IsSpaceByte Bytes.newline := ⟨by decide, by decide⟩
    rw [reread, List.dropLast_concat, Text.trim_append_space hnewline body, trim_finishLine,
      List.reverse_reverse]
  induction ls with
  | nil => rfl
  | cons l ls ih =>
    rw [List.forall_mem_cons] at h
    rw [List.map_cons, parsed?, parsed?, ih h.2, lineRecords?, lineRecords?, htrim l h.1]

/-! ## The line of a record -/

def recordLine (r : HistoryRecord) : Bytes := r.toLine ++ [Bytes.newline]

variable {r : HistoryRecord}

theorem isLine_recordLine (h : r.IsStorable) : IsLine (recordLine r) :=
  ⟨r.toLine, rfl, r.newline_not_mem_toLine, h.short⟩

theorem reread_recordLine (r : HistoryRecord) : reread (recordLine r) = recordLine r := by
  obtain ⟨body, hbody⟩ := r.toLine_eq
  rw [reread, recordLine, List.dropLast_concat, finishLine_other, List.reverse_reverse]
  have hbrace : Bytes.closeBrace ≠ Bytes.carriageReturn := by decide
  simpa [hbody] using hbrace

/-- A line that is the line of a record but for blanks around it. -/
theorem parsed?_of_trim {line : Bytes} (h : r.IsStorable) (htrim : Text.trim line = r.toLine) :
    parsed? [line] = some [r] := by
  have hne : r.toLine.isEmpty = false := by
    obtain ⟨body, hbody⟩ := r.toLine_eq
    rw [hbody]
    rfl
  simp [parsed?, lineRecords?, htrim, hne, HistoryRecord.ofLine?_toLine h]

theorem parsed?_recordLine (h : r.IsStorable) : parsed? [recordLine r] = some [r] := by
  have hnewline : Text.IsSpaceByte Bytes.newline := ⟨by decide, by decide⟩
  refine parsed?_of_trim h ?_
  rw [recordLine, Text.trim_append_space hnewline, r.trim_toLine]

theorem parsed?_map_recordLine {rs : List HistoryRecord} (h : ∀ r ∈ rs, r.IsStorable) :
    parsed? (rs.map recordLine) = some rs := by
  induction rs with
  | nil => rfl
  | cons r rs ih =>
    rw [List.forall_mem_cons] at h
    rw [List.map_cons, ← List.singleton_append, parsed?_append_eq_some]
    exact ⟨[r], rs, parsed?_recordLine h.1, ih h.2, rfl⟩

/-! ## Texts that a record can be added to -/

/-- Behind the last newline of a text are only blanks, and with them a line is not
too long. -/
def TakesLine (text line : Bytes) : Prop :=
  ∃ front blank, text = front ++ blank ∧ IsWhole front ∧ Bytes.newline ∉ blank ∧
    Text.trim blank = [] ∧ blank.length + line.length < maxLine

theorem takesLine_of_isWhole {text : Bytes} (h : IsWhole text) (hr : r.IsStorable) :
    TakesLine text r.toLine :=
  ⟨text, [], (List.append_nil text).symm, h, List.not_mem_nil, rfl, by
    rw [List.length_nil, Nat.zero_add]
    exact hr.short⟩

theorem parsed?_blank {blank : Bytes} (hnewline : Bytes.newline ∉ blank)
    (hblank : Text.trim blank = []) (hlength : blank.length < maxLine) :
    ∃ ls, lines? blank = some ls ∧ parsed? ls = some [] := by
  by_cases hne : blank = []
  · rw [hne]
    exact ⟨[], rfl, rfl⟩
  · refine ⟨_, lines?_body hne hnewline hlength, ?_⟩
    simp [parsed?, lineRecords?, trim_finishLine, hblank]

/-- The record that is added to a text stands in its last line, with or without
the newline at its end, and the lines before hold what the text held. -/
theorem lines?_takesLine {text : Bytes} {lines : List Bytes} {recent : List HistoryRecord}
    (h : TakesLine text r.toLine) (hr : r.IsStorable) (hlines : lines? text = some lines)
    (hparsed : parsed? lines = some recent) :
    ∃ init last, lines? (text ++ recordLine r) = some (init ++ [last]) ∧
      lines? (text ++ r.toLine) = some (init ++ [last]) ∧
      parsed? init = some recent ∧ parsed? [last] = some [r] := by
  obtain ⟨front, blank, rfl, hfront, hnewline, hblank, hlength⟩ := h
  obtain ⟨ls, hls, hnone⟩ := parsed?_blank hnewline hblank (by omega)
  have hbody : Bytes.newline ∉ blank ++ r.toLine := by
    rw [List.mem_append, not_or]
    exact ⟨hnewline, r.newline_not_mem_toLine⟩
  have hshort : (blank ++ r.toLine).length < maxLine := by rwa [List.length_append]
  have hne : blank ++ r.toLine ≠ [] := by
    obtain ⟨body, hbody⟩ := r.toLine_eq
    simp [hbody]
  have hline : lines? (blank ++ recordLine r) = some [finishLine (blank ++ r.toLine).reverse] := by
    have hline : IsLine (blank ++ recordLine r) :=
      ⟨_, (List.append_assoc ..).symm, hbody, hshort⟩
    rw [lines?_line hline, reread, recordLine, ← List.append_assoc, List.dropLast_concat]
  rw [lines?_append hfront, hls] at hlines
  obtain ⟨init, hinit, hlines⟩ := Option.bind_eq_some_iff.mp hlines
  cases hlines
  obtain ⟨recent', nothing, hrecent, hnothing, rfl⟩ := parsed?_append_eq_some.mp hparsed
  rw [hnone] at hnothing
  cases hnothing
  refine ⟨init, finishLine (blank ++ r.toLine).reverse, ?_, ?_, by rwa [List.append_nil], ?_⟩
  · rw [List.append_assoc, lines?_append hfront, hinit, hline]
    rfl
  · rw [List.append_assoc, lines?_append hfront, hinit, lines?_body hne hbody hshort]
    rfl
  · obtain ⟨body, hbody⟩ := r.toLine_eq
    refine parsed?_of_trim hr ?_
    rw [trim_finishLine, List.reverse_reverse, hbody,
      Text.trim_append_of_trim_eq_nil hblank (by decide), ← hbody, r.trim_toLine]

end History

end ScanTriage
