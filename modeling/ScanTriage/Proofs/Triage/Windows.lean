import Mathlib.Data.List.Basic
import Mathlib.Data.List.Induction
import ScanTriage.Proofs.Triage.Chain
import ScanTriage.Triage.Engine

/-!
# Windows against one finding at a time

`Engine.windows` takes findings in windows whose size shrinks with the rest of
the cap, and classifies a window in any order. `Engine.oneByOne` is the plain
loop: one finding after the other until the cap is used up. Both pass through
states of the form `State.after seen rest`, which depend only on what was seen
and what is left. A window changes such a state the way the plain loop does in
as many turns (`oneByOne_append`), so the two loops end in the same state.

Positions are 64-bit integers. From the second window on, the rest of the cap
is at most as large as the position, so the end of a window is at most twice
the position of its start (`Visited.room`).
-/

namespace ScanTriage

def Finding.record? (f : Finding) : Option TriageRecord :=
  f.classify?.map fun d => ⟨f.key, d, (Evidence.of f).thirdParty⟩

def Finding.isKnown (f : Finding) : Bool := Chain.isKnown f.id

theorem Finding.classify?_isSome (f : Finding) : f.classify?.isSome = f.isKnown := by
  simp [Finding.classify?, Finding.isKnown, Chain.isKnown]

theorem Finding.record?_isSome (f : Finding) : f.record?.isSome = f.isKnown := by
  simp [Finding.record?, ← f.classify?_isSome]

def recordsOf (findings : List Finding) : List TriageRecord := findings.filterMap Finding.record?

theorem recordsOf_append (a b : List Finding) : recordsOf (a ++ b) = recordsOf a ++ recordsOf b :=
  List.filterMap_append

theorem length_recordsOf (findings : List Finding) :
    (recordsOf findings).length = findings.countP Finding.isKnown := by
  simp only [recordsOf, List.length_filterMap_eq_countP, Finding.record?_isSome]

theorem length_recordsOf_le (findings : List Finding) :
    (recordsOf findings).length ≤ findings.length := by
  rw [length_recordsOf]; exact List.countP_le_length

/-! ## Tallies of records -/

theorem Tally.ofRecords_append_singleton (records : List TriageRecord) (r : TriageRecord) :
    Tally.ofRecords (records ++ [r]) = (Tally.ofRecords records).add r.decision.toRuling := by
  simp [Tally.ofRecords]

@[simp] theorem Tally.add_reviewed (t : Tally) (d : Ruling) :
    (t.add d).reviewed = t.reviewed + 1 := by
  unfold Tally.add Tally.addConfidence Tally.addClassification
  split <;> split <;> rfl

theorem Tally.ofRecords_reviewed (records : List TriageRecord) :
    (Tally.ofRecords records).reviewed = Int64.ofNat records.length := by
  induction records using List.reverseRecOn with
  | nil => rfl
  | append_singleton records r ih =>
    rw [ofRecords_append_singleton, add_reviewed, ih]
    simp

namespace Engine

/-! ## States between windows -/

/-- The state when `seen` has been triaged and `rest` has not. -/
def State.after (seen rest : List Finding) : State where
  position := Int64.ofNat seen.length
  rest := rest
  records := (recordsOf seen).reverse
  tally := Tally.ofRecords (recordsOf seen)
  skipped := Int64.ofNat (seen.countP fun f => !f.isKnown)

theorem State.after_nil (findings : List Finding) :
    State.after [] findings = { rest := findings } := rfl

/-- Counting one more finding moves it to those that were seen, except for the
position, which a window sets on its own. -/
theorem State.add_after (seen : List Finding) (f : Finding) (rest : List Finding) (p : Int64) :
    ({ State.after seen rest with position := p }.add ⟨f, f.classify?⟩) =
      { State.after (seen ++ [f]) rest with position := p } := by
  cases h : f.classify? with
  | none =>
    have hr : f.record? = none := by simp [Finding.record?, h]
    have hk : f.isKnown = false := by rw [← f.classify?_isSome, h]; rfl
    simp [State.add, State.after, recordsOf, hr, hk]
  | some d =>
    have hr : f.record? = some ⟨f.key, d, (Evidence.of f).thirdParty⟩ := by
      simp [Finding.record?, h]
    have hk : f.isKnown = true := by rw [← f.classify?_isSome, h]; rfl
    simp [State.add, State.after, recordsOf, hr, hk, Tally.ofRecords_append_singleton]

theorem State.foldl_add_after (window seen rest : List Finding) (p : Int64) :
    (window.map fun f => (⟨f, f.classify?⟩ : Outcome)).foldl State.add
        { State.after seen rest with position := p } =
      { State.after (seen ++ window) rest with position := p } := by
  induction window generalizing seen with
  | nil => simp
  | cons f window ih =>
    rw [List.map_cons, List.foldl_cons, State.add_after, ih]
    simp

/-! ## One window -/

/-- A schedule leaves out nothing and does nothing twice. -/
def Schedule.IsOrder (schedule : Schedule) : Prop :=
  ∀ position places, (schedule position places).Perm places

/-- Places are told apart by their numbers, so the outcome of a place is found
wherever it was made. -/
theorem outcomeAt_of_mem {work : List (Nat × Finding)} (hn : (work.map Prod.fst).Nodup) {i : Nat}
    {f : Finding} (hm : (i, f) ∈ work) (g : Finding) :
    outcomeAt (work.map fun (i, f) => (i, (⟨f, f.classify?⟩ : Outcome))) i g =
      ⟨f, f.classify?⟩ := by
  induction work with
  | nil => cases hm
  | cons p work ih =>
    obtain ⟨j, e⟩ := p
    simp only [List.map_cons, List.nodup_cons] at hn
    rcases List.mem_cons.mp hm with h | h
    · cases h
      simp [outcomeAt]
    · have hne : j ≠ i := by
        rintro rfl
        exact hn.1 (List.mem_map_of_mem (f := Prod.fst) h)
      have := ih hn.2 h
      simpa [outcomeAt, hne] using this

theorem classifyWindow_outcomes {order : List (Nat × Finding) → List (Nat × Finding)}
    (ho : ∀ places, (order places).Perm places) (workers : Int64) (window : List Finding) :
    (classifyWindow workers order window).1 = window.map fun f => ⟨f, f.classify?⟩ := by
  have hdone : ∀ work : List (Nat × Finding),
      (work.map fun (i, f) => (i, classifyOne f)).map (fun d => (d.1, d.2.1)) =
        work.map fun (i, f) => (i, (⟨f, f.classify?⟩ : Outcome)) := by
    simp [classifyOne, Finding.trial_fst]
  unfold classifyWindow
  simp only [hdone]
  generalize hp : window.mapIdx (fun i f => (i, f)) = places
  have hwork : (if isSequential workers window then places else order places).Perm places := by
    split
    · exact List.Perm.refl _
    · exact ho places
  have hnodup : (places.map Prod.fst).Nodup := by
    have : places.map Prod.fst = List.range window.length := by
      rw [← hp]
      apply List.ext_getElem <;> simp
    rw [this]; exact List.nodup_range
  have hsnd : places.map Prod.snd = window := by
    rw [← hp]
    apply List.ext_getElem <;> simp
  have houtcomes : ∀ p ∈ places, outcomeAt ((if isSequential workers window then places
      else order places).map fun (i, f) => (i, (⟨f, f.classify?⟩ : Outcome))) p.1 p.2 =
      ⟨p.2, p.2.classify?⟩ := fun p hm =>
    outcomeAt_of_mem ((hwork.map Prod.fst).nodup_iff.mpr hnodup) (hwork.mem_iff.mpr hm) p.2
  calc
    _ = places.map (fun p => (⟨p.2, p.2.classify?⟩ : Outcome)) := List.map_congr_left houtcomes
    _ = window.map fun f => ⟨f, f.classify?⟩ := by rw [← hsnd, List.map_map]; rfl

/-! ## The plain loop -/

/-- The plain loop: takes one finding at a time and stops as soon as the cap
is used up. -/
def oneByOne (limit : Int64) : List Finding → State → State
  | [], s => s
  | f :: rest, s =>
    if s.tally.reviewed < limit then
      oneByOne limit rest { s.add ⟨f, f.classify?⟩ with position := s.position + 1, rest := rest }
    else s

/-- The list fits into a 64-bit address space, in which a finding takes more
than one byte. -/
def Addressable (findings : List Finding) : Prop := 2 * findings.length ≤ 2 ^ 63

section

variable {cap : Nat} {seen rest : List Finding}

theorem State.after_reviewed : (State.after seen rest).tally.reviewed =
    Int64.ofNat (recordsOf seen).length := Tally.ofRecords_reviewed _

/-- The comparison with the cap, as natural numbers. -/
theorem State.after_reviewed_lt (hcap : cap < 2 ^ 63) (hseen : seen.length < 2 ^ 63) :
    (State.after seen rest).tally.reviewed < Int64.ofNat cap ↔ (recordsOf seen).length < cap := by
  have := length_recordsOf_le seen
  rw [State.after_reviewed]
  exact Int64.ofNat_lt_iff_lt (by omega) hcap

theorem oneByOne_cons (hcap : cap < 2 ^ 63) {f : Finding} (hseen : seen.length < 2 ^ 63) :
    oneByOne (Int64.ofNat cap) (f :: rest) (State.after seen (f :: rest)) =
      if (recordsOf seen).length < cap then
        oneByOne (Int64.ofNat cap) rest (State.after (seen ++ [f]) rest)
      else State.after seen (f :: rest) := by
  have hadd : { (State.after seen (f :: rest)).add ⟨f, f.classify?⟩ with
      position := (State.after seen (f :: rest)).position + 1, rest := rest } =
      State.after (seen ++ [f]) rest := by
    rw [show State.after seen (f :: rest) = { State.after seen (f :: rest) with
      position := Int64.ofNat seen.length } from rfl, State.add_after]
    simp [State.after]
  rw [oneByOne, hadd]
  simp only [State.after_reviewed_lt hcap hseen]

/-- A window that is no longer than the rest of the cap takes the plain loop
as far as its end. -/
theorem oneByOne_append (hcap : cap < 2 ^ 63) (seen window rest : List Finding)
    (hfit : seen.length + window.length < 2 ^ 63)
    (hwindow : (recordsOf seen).length + window.length ≤ cap) :
    oneByOne (Int64.ofNat cap) (window ++ rest) (State.after seen (window ++ rest)) =
      oneByOne (Int64.ofNat cap) rest (State.after (seen ++ window) rest) := by
  induction window generalizing seen with
  | nil => simp
  | cons f window ih =>
    simp only [List.length_cons] at hfit hwindow
    have hlen : (recordsOf (seen ++ [f])).length ≤ (recordsOf seen).length + 1 := by
      rw [recordsOf_append, List.length_append]
      have := length_recordsOf_le [f]
      simp only [List.length_singleton] at this
      omega
    rw [List.cons_append, oneByOne_cons hcap (by omega), if_pos (by omega),
      ih _ (by rw [List.length_append, List.length_singleton]; omega) (by omega)]
    simp

/-- Where nothing is left, or nothing of the cap, the plain loop stays. -/
theorem oneByOne_stop (hcap : cap < 2 ^ 63) (hseen : seen.length < 2 ^ 63)
    (hstop : rest = [] ∨ cap ≤ (recordsOf seen).length) :
    oneByOne (Int64.ofNat cap) rest (State.after seen rest) = State.after seen rest := by
  cases rest with
  | nil => rfl
  | cons f rest =>
    have : ¬ (recordsOf seen).length < cap := by
      rcases hstop with h | h
      · cases h
      · omega
    rw [oneByOne_cons hcap hseen, if_neg this]

end

/-! ## Where the plain loop stops -/

/-- The loop stops behind `seen`: the cap is used up or nothing is left, and
it was not used up before. -/
structure Stops (cap : Nat) (seen rest : List Finding) : Prop where
  within : (recordsOf seen).length ≤ cap
  used : rest = [] ∨ (recordsOf seen).length = cap
  prompt : ∀ front f, seen = front ++ [f] → (recordsOf front).length < cap

theorem oneByOne_stops {cap : Nat} (hcap : cap < 2 ^ 63) (seen rest : List Finding)
    (hfit : seen.length + rest.length < 2 ^ 63)
    (hwithin : (recordsOf seen).length ≤ cap)
    (hprompt : ∀ front f, seen = front ++ [f] → (recordsOf front).length < cap) :
    ∃ taken left, rest = taken ++ left ∧ Stops cap (seen ++ taken) left ∧
      oneByOne (Int64.ofNat cap) rest (State.after seen rest) =
        State.after (seen ++ taken) left := by
  induction rest generalizing seen with
  | nil =>
    rw [← List.append_nil seen] at hwithin hprompt
    exact ⟨[], [], rfl, ⟨hwithin, .inl rfl, hprompt⟩, by simp [oneByOne]⟩
  | cons f rest ih =>
    simp only [List.length_cons] at hfit
    rw [oneByOne_cons hcap (by omega)]
    by_cases hlt : (recordsOf seen).length < cap
    · have hone := length_recordsOf_le [f]
      simp only [List.length_singleton] at hone
      obtain ⟨taken, left, hsplit, hstops, heq⟩ := ih (seen ++ [f])
        (by rw [List.length_append, List.length_singleton]; omega)
        (by rw [recordsOf_append, List.length_append]; omega)
        (by
          intro front g h
          obtain ⟨rfl, -⟩ := List.append_inj' h rfl
          exact hlt)
      rw [List.append_assoc, List.singleton_append] at hstops heq
      exact ⟨f :: taken, left, by rw [hsplit, List.cons_append], hstops, by rw [if_pos hlt, heq]⟩
    · refine ⟨[], f :: rest, rfl, ?_, by rw [if_neg hlt, List.append_nil]⟩
      rw [List.append_nil]
      exact ⟨hwithin, .inr (by omega), hprompt⟩

namespace Stops

variable {cap : Nat} {seen rest : List Finding}

/-- What was reviewed are the first known findings, as many as the cap. -/
theorem recordsOf_eq (h : Stops cap seen rest) :
    recordsOf seen = (recordsOf (seen ++ rest)).take cap := by
  rcases h.used with hrest | hused
  · rw [hrest, List.append_nil, List.take_of_length_le h.within]
  · rw [recordsOf_append, ← hused, List.take_left]

theorem seen_eq_nil (h : Stops 0 seen rest) : seen = [] := by
  rcases List.eq_nil_or_concat' seen with hs | ⟨front, f, hs⟩
  · exact hs
  · exact absurd (h.prompt front f hs) (Nat.not_lt_zero _)

theorem rest_eq_nil (h : Stops cap seen rest)
    (hfew : (seen ++ rest).countP Finding.isKnown < cap) : rest = [] := by
  rcases h.used with hrest | hused
  · exact hrest
  · rw [List.countP_append, ← length_recordsOf] at hfew
    omega

/-- What is left is what stands behind the finding that used the cap up. -/
theorem rest_eq (h : Stops cap seen rest) {front back : List Finding} {f : Finding}
    (hsplit : seen ++ rest = front ++ f :: back) (hf : f.isKnown = true)
    (hcount : front.countP Finding.isKnown + 1 = cap) : rest = back := by
  rw [show front ++ f :: back = (front ++ [f]) ++ back by simp] at hsplit
  have hfull : (recordsOf (front ++ [f])).length = cap := by
    simp [length_recordsOf, hf, hcount]
  rcases List.append_eq_append_iff.mp hsplit with ⟨more, hfront, hrest⟩ | ⟨more, hseen, hback⟩
  · -- The loop would have stopped too early.
    rcases List.eq_nil_or_concat' more with hmore | ⟨more', g, hmore⟩
    · rw [hrest, hmore, List.nil_append]
    · rw [hmore, ← List.append_assoc] at hfront
      obtain ⟨hfront', -⟩ := List.append_inj' hfront rfl
      have hlt : (recordsOf seen).length < cap := by
        have : front.countP Finding.isKnown = seen.countP Finding.isKnown +
            more'.countP Finding.isKnown := by rw [hfront', List.countP_append]
        rw [length_recordsOf]
        omega
      rcases h.used with hr | hu
      · rw [hr, hmore] at hrest
        simp at hrest
      · omega
  · -- The loop would have gone on too long.
    rcases List.eq_nil_or_concat' more with hmore | ⟨more', g, hmore⟩
    · rw [hback, hmore, List.nil_append]
    · have hlt := h.prompt (front ++ [f] ++ more') g (by rw [hseen, hmore]; simp)
      rw [recordsOf_append, List.length_append, hfull] at hlt
      omega

end Stops

/-! ## The loop over windows -/

def cap (engine : Engine) : Nat := engine.maxFindings.toNatClampNeg

theorem cap_lt (engine : Engine) : engine.cap < 2 ^ 63 := Int64.toNatClampNeg_lt _

theorem limit_eq (engine : Engine) : engine.limit = Int64.ofNat engine.cap := by
  unfold limit cap
  split
  · next h =>
    have : engine.maxFindings.toNatClampNeg = 0 :=
      Int64.toNatClampNeg_eq_zero_iff.mpr (Int64.le_of_lt h)
    rw [this]; rfl
  · next h => exact (Int64.ofNat_toNatClampNeg _ (Int64.not_lt.mp h)).symm

def capLeft (engine : Engine) (seen : List Finding) : Nat :=
  engine.cap - (recordsOf seen).length

/-- What holds between two windows: the cap is not exceeded, and after the
first window the rest of the cap is at most as large as the position. -/
structure Between (cap : Nat) (findings seen rest : List Finding) : Prop where
  split : findings = seen ++ rest
  within : (recordsOf seen).length ≤ cap
  room : rest = [] ∨ seen = [] ∨ cap ≤ seen.length + (recordsOf seen).length

theorem Between.start (cap : Nat) (findings : List Finding) : Between cap findings [] findings where
  split := rfl
  within := Nat.zero_le _
  room := .inr (.inl rfl)

section

variable {engine : Engine} {schedule : Schedule} {findings seen rest : List Finding}

theorem capLeft_add (h : (recordsOf seen).length ≤ engine.cap) :
    engine.capLeft seen + (recordsOf seen).length = engine.cap := Nat.sub_add_cancel h

theorem goesOn_after (hf : Addressable findings) (h : Between engine.cap findings seen rest) :
    (State.after seen rest).goesOn engine.limit (Int64.ofNat findings.length) = true ↔
      rest ≠ [] ∧ (recordsOf seen).length < engine.cap := by
  have hlen : findings.length = seen.length + rest.length := by rw [h.split, List.length_append]
  unfold Addressable at hf
  have hposition : (State.after seen rest).position < Int64.ofNat findings.length ↔ rest ≠ [] := by
    rw [State.after, Int64.ofNat_lt_iff_lt (by omega) (by omega), ← List.length_pos_iff]
    omega
  rw [State.goesOn, Bool.and_eq_true, decide_eq_true_iff, decide_eq_true_iff, hposition, limit_eq,
    State.after_reviewed_lt engine.cap_lt (by omega)]

/-- The end of a window, before it is cut to the findings there are, is below
the largest 64-bit integer. -/
theorem Between.end_lt (hf : Addressable findings) (h : Between engine.cap findings seen rest)
    (hrest : rest ≠ []) : seen.length + (engine.capLeft seen) < 2 ^ 63 := by
  have hlen : findings.length = seen.length + rest.length := by rw [h.split, List.length_append]
  have hpos : 0 < rest.length := List.length_pos_iff.mpr hrest
  have hleft := capLeft_add h.within
  have hcap := engine.cap_lt
  unfold Addressable at hf
  rcases h.room with hr | hr | hr
  · exact absurd hr hrest
  · subst hr
    simp only [List.length_nil]
    omega
  · omega

/-- The unclipped end of a window, in 64-bit arithmetic. -/
theorem State.after_end (h : (recordsOf seen).length ≤ engine.cap) :
    (State.after seen rest).position + (engine.limit - (State.after seen rest).tally.reviewed) =
      Int64.ofNat (seen.length + (engine.capLeft seen)) := by
  rw [State.after_reviewed, limit_eq, Int64.ofNat_add, capLeft, Int64.ofNat_sub _ _ h]
  rfl

theorem windowEnd_after (hf : Addressable findings) (h : Between engine.cap findings seen rest)
    (hrest : rest ≠ []) :
    windowEnd engine.limit (Int64.ofNat findings.length) (State.after seen rest) =
      Int64.ofNat (seen.length + (rest.take (engine.capLeft seen)).length) := by
  have hlen : findings.length = seen.length + rest.length := by rw [h.split, List.length_append]
  have hend := h.end_lt hf hrest
  unfold Addressable at hf
  have hcut := Int64.ofNat_lt_iff_lt (a := findings.length) (by omega) hend
  simp only [windowEnd, State.after_end h.within, List.length_take]
  split
  · next hlt =>
    have := hcut.mp hlt
    rw [hlen, Nat.min_eq_right (by omega)]
  · next hlt =>
    have := mt hcut.mpr hlt
    rw [Nat.min_eq_left (by omega)]

/-- One window: the state moves on by the window, which is as long as the rest
of the cap, or as the list if that ends before. -/
theorem advance_after (hs : schedule.IsOrder) (hf : Addressable findings)
    (h : Between engine.cap findings seen rest) (hrest : rest ≠ []) :
    (advance schedule engine (Int64.ofNat findings.length) (State.after seen rest)).1 =
      State.after (seen ++ rest.take (engine.capLeft seen))
        (rest.drop (engine.capLeft seen)) := by
  have hlen : findings.length = seen.length + rest.length := by rw [h.split, List.length_append]
  have hle : (rest.take (engine.capLeft seen)).length ≤ rest.length :=
    (List.take_sublist _ _).length_le
  have hsize : (windowEnd engine.limit (Int64.ofNat findings.length) (State.after seen rest) -
      (State.after seen rest).position).toNatClampNeg =
      (rest.take (engine.capLeft seen)).length := by
    unfold Addressable at hf
    rw [windowEnd_after hf h hrest, State.after, ← Int64.ofNat_sub _ _ (by omega),
      Nat.add_sub_cancel_left, Int64.toNatClampNeg_ofNat_of_lt (by omega)]
  have htake : rest.take (rest.take (engine.capLeft seen)).length =
      rest.take (engine.capLeft seen) := by
    rw [List.length_take, ← List.take_eq_take_min]
  have hfold : ((rest.take (engine.capLeft seen)).map fun f =>
      (⟨f, f.classify?⟩ : Outcome)).foldl State.add (State.after seen rest) =
      { State.after (seen ++ rest.take (engine.capLeft seen)) rest with
        position := Int64.ofNat seen.length } := State.foldl_add_after _ seen rest _
  simp only [advance, hsize]
  rw [classifyWindow_outcomes (hs _), windowEnd_after hf h hrest]
  simp only [show (State.after seen rest).rest = rest from rfl, htake, hfold]
  simp [State.after]

theorem Between.advance (h : Between engine.cap findings seen rest) :
    Between engine.cap findings (seen ++ rest.take (engine.capLeft seen))
      (rest.drop (engine.capLeft seen)) where
  split := by rw [h.split, List.append_assoc, List.take_append_drop]
  within := by
    have hleft := capLeft_add h.within
    have h1 := length_recordsOf_le (rest.take (engine.capLeft seen))
    have h2 := List.length_take_le (engine.capLeft seen) rest
    rw [recordsOf_append, List.length_append]
    omega
  room := by
    by_cases hlong : rest.length ≤ engine.capLeft seen
    · exact .inl (List.drop_of_length_le hlong)
    · have hleft := capLeft_add h.within
      right; right
      rw [List.length_append, List.length_take, Nat.min_eq_left (by omega), recordsOf_append,
        List.length_append]
      omega

/-- One turn of the loop over windows: it leaves fewer findings, and takes the
plain loop along. -/
theorem Between.step (hs : schedule.IsOrder) (hf : Addressable findings)
    (h : Between engine.cap findings seen rest)
    (hgo : (State.after seen rest).goesOn engine.limit (Int64.ofNat findings.length) = true) :
    ∃ seen' rest', (Engine.advance schedule engine (Int64.ofNat findings.length)
        (State.after seen rest)).1 = State.after seen' rest' ∧
      Between engine.cap findings seen' rest' ∧ rest'.length < rest.length ∧
      oneByOne engine.limit rest (State.after seen rest) =
        oneByOne engine.limit rest' (State.after seen' rest') := by
  obtain ⟨hrest, hbelow⟩ := (goesOn_after hf h).mp hgo
  have hlen : findings.length = seen.length + rest.length := by rw [h.split, List.length_append]
  have hpos : 0 < rest.length := List.length_pos_iff.mpr hrest
  have hleft := capLeft_add h.within
  have htake := List.length_take_le (engine.capLeft seen) rest
  have htake' := (List.take_sublist (engine.capLeft seen) rest).length_le
  refine ⟨seen ++ rest.take (engine.capLeft seen), rest.drop (engine.capLeft seen),
    advance_after hs hf h hrest, h.advance, by rw [List.length_drop]; omega, ?_⟩
  have hplain := oneByOne_append engine.cap_lt seen (rest.take (engine.capLeft seen))
    (rest.drop (engine.capLeft seen)) (by unfold Addressable at hf; omega) (by omega)
  rwa [List.take_append_drop, ← limit_eq] at hplain

theorem Between.stop (hf : Addressable findings) (h : Between engine.cap findings seen rest)
    (hgo : ¬ (State.after seen rest).goesOn engine.limit (Int64.ofNat findings.length) = true) :
    oneByOne engine.limit rest (State.after seen rest) = State.after seen rest := by
  have hlen : findings.length = seen.length + rest.length := by rw [h.split, List.length_append]
  have hstop : rest = [] ∨ engine.cap ≤ (recordsOf seen).length := by
    have hno := mt (goesOn_after hf h).mpr hgo
    by_cases hr : rest = []
    · exact .inl hr
    · exact .inr (Nat.not_lt.mp fun hlt => hno ⟨hr, hlt⟩)
  rw [limit_eq]
  exact oneByOne_stop engine.cap_lt (by unfold Addressable at hf; omega) hstop

/-- The loop over windows ends in the state in which the plain loop ends, with
any fuel beyond the number of findings left. -/
theorem windows_after (hs : schedule.IsOrder) (hf : Addressable findings)
    (hlive : engine.cancelled = false) {fuel : Nat} (events : List Event)
    (h : Between engine.cap findings seen rest) (hfuel : rest.length < fuel) :
    ∃ shown, windows schedule engine (Int64.ofNat findings.length) fuel (State.after seen rest)
        events = .ok (oneByOne engine.limit rest (State.after seen rest), events ++ shown) := by
  induction fuel generalizing seen rest events with
  | zero => omega
  | succ fuel ih =>
    rw [windows, hlive]
    by_cases hgo : (State.after seen rest).goesOn engine.limit (Int64.ofNat findings.length)
    · obtain ⟨seen', rest', hnext, hbetween, hless, hplain⟩ := h.step hs hf hgo
      rw [if_pos hgo, hplain]
      simp only [Bool.false_eq_true, if_false, hnext]
      obtain ⟨shown, hshown⟩ := ih (events ++ (Engine.advance schedule engine
        (Int64.ofNat findings.length) (State.after seen rest)).2) hbetween (by omega)
      exact ⟨_, by rw [hshown, List.append_assoc]⟩
    · exact ⟨[], by rw [if_neg hgo, h.stop hf hgo, List.append_nil]⟩

/-- The states in which the loop looks at its condition. -/
inductive Visited (schedule : Schedule) (engine : Engine) (findings : List Finding) : State → Prop
  | start : Visited schedule engine findings { rest := findings }
  | window {s : State} : Visited schedule engine findings s →
      s.goesOn engine.limit (Int64.ofNat findings.length) = true →
      Visited schedule engine findings
        (Engine.advance schedule engine (Int64.ofNat findings.length) s).1

theorem Visited.between (hs : schedule.IsOrder) (hf : Addressable findings) {s : State}
    (h : Visited schedule engine findings s) :
    ∃ seen rest, s = State.after seen rest ∧ Between engine.cap findings seen rest := by
  induction h with
  | start => exact ⟨[], findings, rfl, .start _ _⟩
  | window _ hgo ih =>
    obtain ⟨seen, rest, rfl, hbetween⟩ := ih
    obtain ⟨seen', rest', hnext, hbetween', -⟩ := hbetween.step hs hf hgo
    exact ⟨seen', rest', hnext, hbetween'⟩

/-- The end of the plain loop is a state that the loop over windows visits, and
there its condition fails: the loop ends after finitely many windows. -/
theorem Visited.oneByOne (hs : schedule.IsOrder) (hf : Addressable findings)
    (hv : Visited schedule engine findings (State.after seen rest))
    (h : Between engine.cap findings seen rest) :
    Visited schedule engine findings (Engine.oneByOne engine.limit rest (State.after seen rest)) ∧
      (Engine.oneByOne engine.limit rest (State.after seen rest)).goesOn engine.limit
        (Int64.ofNat findings.length) = false := by
  induction hn : rest.length using Nat.strongRecOn generalizing seen rest with
  | ind n ih =>
    by_cases hgo : (State.after seen rest).goesOn engine.limit (Int64.ofNat findings.length)
    · obtain ⟨seen', rest', hnext, hbetween, hless, hplain⟩ := h.step hs hf hgo
      rw [hplain]
      exact ih rest'.length (by omega) (hnext ▸ hv.window hgo) hbetween rfl
    · rw [h.stop hf hgo]
      exact ⟨hv, Bool.eq_false_iff.mpr hgo⟩

/-- The arithmetic on positions is exact: no window's end leaves the 64-bit
range before it is cut to the findings there are. -/
theorem Visited.end_exact (hs : schedule.IsOrder) (hf : Addressable findings) {s : State}
    (h : Visited schedule engine findings s)
    (hgo : s.goesOn engine.limit (Int64.ofNat findings.length) = true) :
    (s.position + (engine.limit - s.tally.reviewed)).toInt =
      s.position.toInt + (engine.limit.toInt - s.tally.reviewed.toInt) := by
  obtain ⟨seen, rest, rfl, hbetween⟩ := h.between hs hf
  obtain ⟨hrest, -⟩ := (goesOn_after hf hbetween).mp hgo
  have hlen : findings.length = seen.length + rest.length := by
    rw [hbetween.split, List.length_append]
  have hend := hbetween.end_lt hf hrest
  have hcap := engine.cap_lt
  have hleft := capLeft_add hbetween.within
  have hcount := length_recordsOf_le seen
  unfold Addressable at hf
  rw [State.after_end hbetween.within, State.after_reviewed, limit_eq,
    Int64.toInt_ofNat_of_lt hend, Int64.toInt_ofNat_of_lt hcap, Int64.toInt_ofNat_of_lt (by omega),
    show (State.after seen rest).position = Int64.ofNat seen.length from rfl,
    Int64.toInt_ofNat_of_lt (by omega)]
  omega

end

/-! ## Runs -/

def plain (engine : Engine) (findings : List Finding) : State :=
  oneByOne engine.limit findings { rest := findings }

theorem plain_eq_after (engine : Engine) {findings : List Finding} (hf : Addressable findings) :
    ∃ seen rest, findings = seen ++ rest ∧ Stops engine.cap seen rest ∧
      engine.plain findings = State.after seen rest := by
  obtain ⟨seen, rest, hsplit, hstops, heq⟩ := oneByOne_stops engine.cap_lt [] findings
    (by unfold Addressable at hf; simp only [List.length_nil]; omega) (Nat.zero_le _)
    (by intro front f h; simp at h)
  rw [State.after_nil, ← limit_eq] at heq
  exact ⟨seen, rest, hsplit, hstops, heq⟩

/-- A run that is not called off reports and logs the end of the plain loop. -/
theorem runWith_eq_ok {schedule : Schedule} (hs : schedule.IsOrder) (engine : Engine)
    (hlive : engine.cancelled = false) (findings? : Option (List Finding))
    (hf : Addressable (findings?.getD [])) :
    ∃ shown, engine.runWith schedule findings? =
      .ok (engine.report findings? (engine.plain (findings?.getD [])),
        shown ++ [.log (completion (Int64.ofNat (findings?.getD []).length)
            (engine.plain (findings?.getD []))),
          .trace (.print (closing engine.limit (engine.plain (findings?.getD []))))]) := by
  obtain ⟨shown, hshown⟩ := windows_after hs hf hlive [.trace (.section "Classify")]
    (Between.start engine.cap (findings?.getD [])) (Nat.lt_succ_self _)
  rw [State.after_nil] at hshown
  refine ⟨[.trace (.section "Classify")] ++ shown, ?_⟩
  rw [runWith, hshown]
  rfl

/-- What a run reports is the report of the state it ends in. -/
theorem exists_report_of_runWith {schedule : Schedule} {engine : Engine}
    {findings? : Option (List Finding)} {report : Report} {events : List Event}
    (h : engine.runWith schedule findings? = .ok (report, events)) :
    ∃ s, report = engine.report findings? s := by
  rw [runWith] at h
  cases hwindows : windows schedule engine (Int64.ofNat (findings?.getD []).length)
      ((findings?.getD []).length + 1) { rest := findings?.getD [] }
      [.trace (.section "Classify")] with
  | error stopped =>
    rw [hwindows] at h
    cases h
  | ok result =>
    rw [hwindows] at h
    cases h
    exact ⟨_, rfl⟩

/-- How the findings of a run divide into those reviewed, those passed over and
those not reached. -/
structure Account (cap : Nat) (findings : List Finding) (reviewed unrecognized notReached : Nat) :
    Prop where
  sum : reviewed + unrecognized + notReached = findings.length
  reviewed_eq : reviewed = min cap (findings.countP Finding.isKnown)
  noCap : cap = 0 → notReached = findings.length
  belowCap : findings.countP Finding.isKnown < cap → notReached = 0
  /-- The ones not reached are those behind the one that used the cap up. -/
  behind : ∀ front f back, findings = front ++ f :: back → f.isKnown = true →
    front.countP Finding.isKnown + 1 = cap → notReached = back.length

theorem Stops.account {cap : Nat} {seen rest : List Finding} (h : Stops cap seen rest) :
    Account cap (seen ++ rest) (recordsOf seen).length (seen.countP fun f => !f.isKnown)
      rest.length where
  sum := by
    have hseen := List.length_eq_countP_add_countP Finding.isKnown (l := seen)
    simp only [Bool.not_eq_true, Bool.decide_eq_false] at hseen
    rw [length_recordsOf, List.length_append]
    omega
  reviewed_eq := by
    rw [h.recordsOf_eq, List.length_take, length_recordsOf]
  noCap := by
    rintro rfl
    rw [h.seen_eq_nil, List.nil_append]
  belowCap := fun hfew => by rw [h.rest_eq_nil hfew, List.length_nil]
  behind := fun front f back hsplit hf hcount => by rw [h.rest_eq hsplit hf hcount]

def counters (total reviewed unrecognized notReached : Nat) : List (Bytes × LogValue) :=
  [ ("total", .int (Int64.ofNat total)),
    ("reviewed", .int (Int64.ofNat reviewed)),
    ("unrecognized", .int (Int64.ofNat unrecognized)),
    ("not_reached", .int (Int64.ofNat notReached)) ]

/-- The logged counters are those of an account of the findings. -/
theorem completion_plain (engine : Engine) {findings : List Finding} (hf : Addressable findings) :
    ∃ reviewed unrecognized notReached,
      Account engine.cap findings reviewed unrecognized notReached ∧
      (completion (Int64.ofNat findings.length) (engine.plain findings)).fields =
        counters findings.length reviewed unrecognized notReached := by
  obtain ⟨seen, rest, rfl, hstops, heq⟩ := plain_eq_after engine hf
  refine ⟨_, _, _, hstops.account, ?_⟩
  rw [heq, completion, State.after_reviewed]
  have hleft : Int64.ofNat (seen ++ rest).length - (State.after seen rest).position =
      Int64.ofNat rest.length := by
    rw [State.after, ← Int64.ofNat_sub _ _ (by simp), List.length_append, Nat.add_sub_cancel_left]
  rw [hleft]
  rfl

theorem report_plain_records (engine : Engine) (findings? : Option (List Finding))
    (hf : Addressable (findings?.getD [])) :
    (engine.report findings? (engine.plain (findings?.getD []))).records =
      (recordsOf (findings?.getD [])).take engine.cap := by
  obtain ⟨seen, rest, hsplit, hstops, heq⟩ := plain_eq_after engine hf
  rw [heq, hsplit, ← hstops.recordsOf_eq]
  simp [report, Report.records, State.after]

/-- A run in windows, in whatever order their findings are classified, does
what a loop does that takes one finding at a time and stops as soon as the cap
is used up: it ends, with the records of the first known findings, as many as
the cap, and it logs an account of all findings. The report does not depend on
the number of workers, and positions stay in the 64-bit range. -/
theorem runWith_eq_plain (schedule : Schedule) (hs : schedule.IsOrder) (engine : Engine)
    (hlive : engine.cancelled = false) (findings? : Option (List Finding))
    (hf : Addressable (findings?.getD [])) :
    let findings := findings?.getD []
    let total := Int64.ofNat findings.length
    let s := engine.plain findings
    (Visited schedule engine findings s ∧ s.goesOn engine.limit total = false) ∧
    (∃ shown, engine.runWith schedule findings? = .ok (engine.report findings? s,
      shown ++ [.log (completion total s), .trace (.print (closing engine.limit s))])) ∧
    (engine.report findings? s).records = (findings.filterMap Finding.record?).take engine.cap ∧
    (∃ reviewed unrecognized notReached,
      Account engine.cap findings reviewed unrecognized notReached ∧
      (completion total s).fields =
        counters findings.length reviewed unrecognized notReached) ∧
    (∀ (workers : Int64) (schedule' : Schedule), schedule'.IsOrder →
      ({ engine with workers }.runWith schedule' findings?).map Prod.fst =
        .ok (engine.report findings? s)) ∧
    ∀ s, Visited schedule engine findings s → s.goesOn engine.limit total = true →
      (s.position + (engine.limit - s.tally.reviewed)).toInt =
        s.position.toInt + (engine.limit.toInt - s.tally.reviewed.toInt) := by
  refine ⟨?_, runWith_eq_ok hs engine hlive findings? hf, report_plain_records engine findings? hf,
    completion_plain engine hf, ?_, fun s hv hgo => hv.end_exact hs hf hgo⟩
  · have hend := Visited.oneByOne hs hf .start (Between.start engine.cap (findings?.getD []))
    rwa [State.after_nil] at hend
  · intro workers schedule' hs'
    obtain ⟨shown, hrun⟩ := runWith_eq_ok hs' { engine with workers } hlive findings? hf
    rw [hrun]
    rfl

/-- Two workers that take the last finding first, and a cap of one: the first
known finding is reviewed, and the one behind it is not reached. -/
theorem runWith_eq_plain_reversed :
    let findings : List Finding :=
      [{ id := "unheard-of" }, { id := "http-no-timeout" }, { id := "spo-001-debug-code" }]
    let engine : Engine := { maxFindings := 1, workers := 2 }
    Schedule.IsOrder (fun _ => List.reverse) ∧ Addressable findings ∧
    ∃ report shown, engine.runWith (fun _ => List.reverse) (some findings) = .ok (report, shown) ∧
      report.records.map (·.key.id) = [("http-no-timeout" : Bytes)] := by
  intro findings engine
  have hs : Schedule.IsOrder (fun _ => List.reverse) := fun _ places => places.reverse_perm
  have hf : Addressable findings := by unfold Addressable; decide
  obtain ⟨-, ⟨shown, hrun⟩, hrecords, -⟩ := runWith_eq_plain _ hs engine rfl (some findings) hf
  exact ⟨hs, hf, _, _, hrun, by rw [hrecords]; rfl⟩

end Engine

end ScanTriage
