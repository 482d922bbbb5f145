import ScanTriage.Proofs.Annotate.Injected
import ScanTriage.Proofs.Triage.Windows

/-!
# Annotating again

Of two triage reports injected one after the other only the second leaves a
trace. Injecting a report leaves the findings alone, and what a run reports
depends on the findings and not on the order of the work
(`Engine.runWith_report_order`), so a text that was annotated with the triage of
its own findings stays as it is when that is done again (`inject_inject`).
-/

namespace ScanTriage

/-! ## The order of work -/

namespace Engine

variable {schedule schedule' : Schedule} {engine : Engine}

/-- A window leads to the same state in every order. -/
theorem advance_order (hs : schedule.IsOrder) (hs' : schedule'.IsOrder) (total : Int64)
    (s : State) : (advance schedule engine total s).1 = (advance schedule' engine total s).1 := by
  simp only [advance, classifyWindow_outcomes (hs _), classifyWindow_outcomes (hs' _)]

theorem windows_order (hs : schedule.IsOrder) (hs' : schedule'.IsOrder)
    (hlive : engine.cancelled = false) (total : Int64) (fuel : Nat) (s : State)
    (events events' : List Event) :
    ∃ last shown shown', windows schedule engine total fuel s events = .ok (last, shown) ∧
      windows schedule' engine total fuel s events' = .ok (last, shown') := by
  induction fuel generalizing s events events' with
  | zero => exact ⟨s, events, events', rfl, rfl⟩
  | succ fuel ih =>
    simp only [windows, hlive, Bool.false_eq_true, if_false]
    by_cases hgo : s.goesOn engine.limit total = true
    · simp only [if_pos hgo, advance_order hs hs' total s]
      exact ih _ _ _
    · simp only [if_neg hgo]
      exact ⟨s, events, events', rfl, rfl⟩

/-- A run that is not called off gives a report, the same in every order. -/
theorem runWith_report_order (hs : schedule.IsOrder) (hs' : schedule'.IsOrder)
    (hlive : engine.cancelled = false) (findings? : Option (List Finding)) :
    ∃ report shown shown', engine.runWith schedule findings? = .ok (report, shown) ∧
      engine.runWith schedule' findings? = .ok (report, shown') := by
  obtain ⟨last, shown, shown', hrun, hrun'⟩ := windows_order hs hs' hlive
    (Int64.ofNat (findings?.getD []).length) ((findings?.getD []).length + 1)
    { rest := findings?.getD [] } [.trace (.section "Classify")] [.trace (.section "Classify")]
  refine ⟨engine.report findings? last, ?_⟩
  rw [runWith, runWith, hrun, hrun']
  exact ⟨_, _, rfl, rfl⟩

end Engine

namespace Annotate

open Json (Glimpse)

variable {data out : Bytes} {r : Report}

/-! ## The findings of an annotated text -/

/-- Injecting a report does not change what is read as the findings, nor
whether there is a list of them. -/
theorem listOfReport?_inject (hdata : Json.isValid data = true) (h : inject data r = .ok out) :
    Finding.listOfReport? out = Finding.listOfReport? data := by
  obtain ⟨ms, d, rfl, hview, hfind⟩ := exists_objectText_inject hdata h
  have hsame : Glimpse.find "findings" d.text = Glimpse.find "findings" data := by
    rw [find_other (by decide) hview, hfind]
  rw [Finding.listOfReport?, Finding.listOfReport?, hsame]

/-- A scan report annotated with the triage of its own findings. -/
def annotated (schedule : Engine.Schedule) (engine : Engine) (data : Bytes) : Option Bytes :=
  (engine.runWith schedule (Finding.listOfReport? data)).toOption.bind fun run =>
    (inject data run.1).toOption

/-- Of two injected reports the second stays, as if there had been no first. A
text annotated with the triage of its own findings has the same findings, and
annotating it once more, with the same engine but in any order of the work,
changes no byte. -/
theorem inject_inject (hdata : Json.isValid data = true) (h : inject data r = .ok out) :
    (∀ r' : Report, ∃ out', inject data r' = .ok out' ∧ inject out r' = .ok out') ∧
    ∀ engine : Engine, engine.cancelled = false →
      ∀ schedule schedule' : Engine.Schedule, schedule.IsOrder → schedule'.IsOrder →
        ∃ once, annotated schedule engine data = some once ∧
          Finding.listOfReport? once = Finding.listOfReport? data ∧
          annotated schedule' engine once = some once := by
  have hname := Json.nameOf_writeString isFieldName_key true
  have hagain : ∀ {r out}, inject data r = .ok out → ∀ r' : Report,
      ∃ out', inject data r' = .ok out' ∧ inject out r' = .ok out' := by
    intro r out h r'
    exact Json.setMember_again hdata (isValue_encoding r) (isValue_encoding r') hname h
  refine ⟨hagain h, fun engine hlive schedule schedule' hs hs' => ?_⟩
  obtain ⟨report, shown, shown', hrun, hrun'⟩ :=
    Engine.runWith_report_order hs hs' hlive (Finding.listOfReport? data)
  obtain ⟨once, honce, -⟩ := hagain h report
  obtain ⟨twice, htwice, hsame⟩ := hagain honce report
  obtain rfl : once = twice := Except.ok.inj (honce.symm.trans htwice)
  have hfindings := listOfReport?_inject hdata honce
  refine ⟨once, ?_, hfindings, ?_⟩
  · rw [annotated, hrun]
    exact congrArg Except.toOption honce
  · rw [annotated, hfindings, hrun']
    exact congrArg Except.toOption hsame

/-- A scan report of three findings that was never annotated. -/
def untriaged : Bytes :=
  "\x7b\"findings\": [ \x7b\"id\": \"http-no-timeout\"\x7d, \x7b\"id\": \"unheard-of\"\x7d," ++
    " \x7b\"id\": \"n-plus-one-pattern\"\x7d ], \"tool\": \"a\"\x7d"

/-- The key is added by the first report and replaced by the second one. Two workers
take the findings from the last to the first, then from the first to the last. -/
theorem inject_inject_untriaged :
    let engine : Engine := { maxFindings := 3, workers := 2 }
    (Finding.listOfReport? untriaged).map List.length = some 3 ∧
    Glimpse.find key untriaged = .missing ∧
    ∃ out out' once, inject untriaged oneFinding = .ok out ∧
      inject untriaged { oneFinding with status := "again" } = .ok out' ∧
      inject out { oneFinding with status := "again" } = .ok out' ∧
      annotated (fun _ => List.reverse) engine untriaged = some once ∧
      annotated (fun _ => id) engine once = some once := by
  intro engine
  obtain ⟨out, hout⟩ : ∃ out, inject untriaged oneFinding = .ok out := ⟨_, rfl⟩
  obtain ⟨hagain, hannotated⟩ := inject_inject (by decide +kernel) hout
  obtain ⟨out', hfirst, hsecond⟩ := hagain { oneFinding with status := "again" }
  obtain ⟨once, honce, -, htwice⟩ := hannotated engine rfl (fun _ => List.reverse) (fun _ => id)
    (fun _ places => places.reverse_perm) (fun _ places => .refl places)
  exact ⟨by decide +kernel, by decide +kernel, out, out', once, hout, hfirst, hsecond, honce,
    htwice⟩

end Annotate

end ScanTriage
