import Mathlib.Logic.Relation
import Inquiry.Proofs.Pass.Reach
set_option autoImplicit false

namespace Inquiry

namespace Pass

abbrev Moment := Standing × Machine

inductive Advances : Moment → Moment → Prop where
  | turn {answers : Answers} {control next : Control} {m m' : Machine}
      (hs : m.step answers control = .next next m') :
      Advances (.running control, m) (.running next, m')
  | stop {answers : Answers} {control : Control} {m m' : Machine} {outcome : Outcome}
      {standing : Standing} (hs : m.step answers control = .stop outcome m')
      (ho : outcome.standing? = some standing) : Advances (.running control, m) (standing, m')
  | answer {m : Machine} {question : Question} (answer : Answer) :
      Advances (.parked question, m)
        (.running (.give answer.datum), m.emit (.input question.text answer.summary))

/-- The moments of a pass from its start on, the last one first. -/
inductive Course (captureTrace : Bool) (program : Program) : List Moment → Prop where
  | start {control : Control} {m : Machine} (hb : program.body ≠ [])
      (hm : (Machine.initial captureTrace).enterBlock Heap.globalFrame [] program.body =
        (control, m)) : Course captureTrace program [(.running control, m)]
  | advance {before after : Moment} {earlier : List Moment}
      (h : Course captureTrace program (before :: earlier)) (ha : Advances before after) :
      Course captureTrace program (after :: before :: earlier)

abbrev Later : Moment → Moment → Prop := Relation.ReflTransGen Advances

variable {captureTrace : Bool} {program : Program} {before after : Moment}

theorem Reaches.advance (h : Reaches captureTrace program before.1 before.2)
    (ha : Advances before after) : Reaches captureTrace program after.1 after.2 := by
  cases ha with
  | turn hs => exact h.next hs
  | stop hs ho => exact h.stop hs ho
  | answer answer => exact h.answer answer

theorem Reaches.later (h : Reaches captureTrace program before.1 before.2)
    (hl : Later before after) : Reaches captureTrace program after.1 after.2 := by
  induction hl with
  | refl => exact h
  | tail _ ha ih => exact ih.advance ha

variable {answers : Answers} {standing : Standing} {m : Machine} {earlier : List Moment}

theorem Course.reaches (h : Course captureTrace program (after :: earlier)) :
    Reaches captureTrace program after.1 after.2 := by
  generalize hmoments : after :: earlier = moments at h
  induction h generalizing after earlier with
  | start hb hm =>
    cases hmoments
    exact .start hb hm
  | advance _ ha ih =>
    cases hmoments
    exact (ih rfl).advance ha

theorem Reaches.exists_course (h : Reaches captureTrace program standing m) :
    ∃ earlier, Course captureTrace program ((standing, m) :: earlier) := by
  induction h with
  | start hb hm => exact ⟨[], .start hb hm⟩
  | next _ hs ih =>
    obtain ⟨_, hc⟩ := ih
    exact ⟨_, hc.advance (.turn hs)⟩
  | stop _ hs ho ih =>
    obtain ⟨_, hc⟩ := ih
    exact ⟨_, hc.advance (.stop hs ho)⟩
  | answer answer _ ih =>
    obtain ⟨_, hc⟩ := ih
    exact ⟨_, hc.advance (.answer answer)⟩

/-- Where a run ends well is later than where it set out. -/
theorem later_run {gas turns : Nat} {control : Control} {m : Machine}
    (ho : (m.run answers gas turns control).outcome.standing? = some standing) :
    Later (.running control, m) (standing, (m.run answers gas turns control).machine) := by
  induction gas generalizing turns control m with
  | zero => cases ho
  | succ gas ih =>
    unfold Machine.run at ho ⊢
    split at ho
    · rename_i hs
      exact .head (.turn hs) (ih ho)
    · rename_i hs
      exact .single (.stop hs ho)

theorem later_resume {config : Config} {answer : Answer} {pass : Pass} {question : Question}
    (hp : pass.outcome = .parked question)
    (ho : (pass.resume config answer answers).outcome.standing? = some standing) :
    Later (.parked question, pass.machine)
      (standing, (pass.resume config answer answers).machine) := by
  rw [resume_of_parked hp] at ho ⊢
  exact .head (.answer answer) (later_run ho)

end Pass

end Inquiry
