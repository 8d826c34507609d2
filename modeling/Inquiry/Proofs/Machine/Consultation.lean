import Inquiry.Pass
import Inquiry.Proofs.Machine.Move
set_option autoImplicit false

/-!
What a run reads of the answers. A turn consults at most one question, so a run is fixed by the
answers to the questions it consults, and more answers let it go on from where it was parked.
-/

namespace Inquiry

namespace Answers

def ExtendsTo (answers more : Answers) : Prop :=
  ∀ question answer, answers.get? question = some answer → more.get? question = some answer

theorem extendsTo_insert {answers : Answers} {question : String} {answer : Answer}
    (h : answers.get? question = none) : answers.ExtendsTo (answers.insert question answer) := by
  intro other known hk
  rw [get?_insert]
  by_cases ho : other = question
  · subst ho
    rw [h] at hk
    contradiction
  · simp [ho, hk]

end Answers

def Control.question? : Control → Option Question
  | .eval (.input question) _ => some question
  | _ => none

theorem Control.question?_eq_some {control : Control} {question : Question}
    (h : control.question? = some question) : ∃ scope, control = .eval (.input question) scope := by
  cases control with
  | give d => simp [question?] at h
  | eval e scope =>
    cases e with
    | input asked =>
      simp only [question?, Option.some.injEq] at h
      exact ⟨scope, h ▸ rfl⟩
    | _ => simp [question?] at h

@[simp] theorem Heap.summary_datum (h : Heap) (answer : Answer) :
    h.summary answer.datum = answer.summary := by cases answer <;> rfl

namespace Machine

theorem step_input_of_none {answers : Answers} {m : Machine} {question : Question} {scope : Scope}
    (h : answers.get? question.text = none) :
    m.step answers (.eval (.input question) scope) = .stop (.parked question) m := by
  simp [step, eval, evalInput, h]

theorem step_input_of_some {answers : Answers} {m : Machine} {question : Question} {scope : Scope}
    {answer : Answer} (h : answers.get? question.text = some answer) :
    m.step answers (.eval (.input question) scope) =
      .next (.give answer.datum) (m.emit (.input question.text answer.summary)) := by
  simp [step, eval, evalInput, conclude, h]

/-- A turn reads nothing of the answers but the one to the question it consults. -/
theorem step_congr {answers others : Answers} {m : Machine} {control : Control}
    (h : ∀ question ∈ control.question?,
      answers.get? question.text = others.get? question.text) :
    m.step answers control = m.step others control := by
  cases control with
  | give d => rfl
  | eval e scope =>
    cases e with
    | input question =>
      have hq := h question rfl
      simp only [step, eval, evalInput, hq]
    | _ => rfl

/-- The questions whose answers a run reads, one for each reading. -/
def consulted (answers : Answers) : Nat → Control → Machine → List String
  | 0, _, _ => []
  | gas + 1, control, m =>
    match m.step answers control with
    | .next next m' =>
      (control.question?.map Question.text).toList ++ consulted answers gas next m'
    | .stop _ _ => []

theorem run_succ_of_next {answers : Answers} {gas turns : Nat} {control next : Control}
    {m m' : Machine} (h : m.step answers control = .next next m') :
    m.run answers (gas + 1) turns control = m'.run answers gas (turns + 1) next := by
  simp [run, h]

theorem run_succ_of_stop {answers : Answers} {gas turns : Nat} {control : Control}
    {outcome : Outcome} {m m' : Machine} (h : m.step answers control = .stop outcome m') :
    m.run answers (gas + 1) turns control = ⟨m', outcome, turns + 1⟩ := by
  simp [run, h]

theorem consulted_succ_of_next {answers : Answers} {gas : Nat} {control next : Control}
    {m m' : Machine} (h : m.step answers control = .next next m') :
    m.consulted answers (gas + 1) control =
      (control.question?.map Question.text).toList ++ m'.consulted answers gas next := by
  simp [consulted, h]

theorem consulted_succ_of_stop {answers : Answers} {gas : Nat} {control : Control}
    {outcome : Outcome} {m m' : Machine} (h : m.step answers control = .stop outcome m') :
    m.consulted answers (gas + 1) control = [] := by
  simp [consulted, h]

/-- A question that is consulted and not answered parks the run there and then. -/
theorem get?_of_run_parked {answers : Answers} {gas turns : Nat} {control : Control} {m : Machine}
    {question : Question} (h : (m.run answers gas turns control).outcome = .parked question) :
    answers.get? question.text = none := by
  induction gas generalizing turns control m with
  | zero => simp [run] at h
  | succ gas ih =>
    cases hs : m.step answers control with
    | next next m' =>
      rw [run_succ_of_next hs] at h
      exact ih h
    | stop outcome m' =>
      rw [run_succ_of_stop hs] at h
      simp only at h
      subst h
      obtain ⟨scope, _, ha, _⟩ := step_eq_parked_iff.mp hs
      exact ha

theorem run_congr {answers others : Answers} {gas turns : Nat} {control : Control} {m : Machine}
    (hc : ∀ text ∈ m.consulted answers gas control, others.get? text = answers.get? text)
    (ho : ∀ question, (m.run answers gas turns control).outcome ≠ .parked question) :
    m.run others gas turns control = m.run answers gas turns control := by
  induction gas generalizing turns control m with
  | zero => rfl
  | succ gas ih =>
    cases hs : m.step answers control with
    | next next m' =>
      rw [consulted_succ_of_next hs] at hc
      rw [run_succ_of_next hs] at ho ⊢
      have he : m.step others control = .next next m' := by
        rw [← hs]
        apply step_congr
        intro question hq
        exact hc question.text (by simp [Option.mem_def.mp hq])
      rw [run_succ_of_next he]
      exact ih (fun text ht => hc text (by simp [ht])) ho
    | stop outcome m' =>
      rw [run_succ_of_stop hs] at ho ⊢
      have he : m.step others control = .stop outcome m' := by
        rw [← hs]
        apply step_congr
        intro question hq
        obtain ⟨scope, rfl⟩ := Control.question?_eq_some hq
        cases ha : answers.get? question.text with
        | none =>
          rw [step_input_of_none ha] at hs
          cases hs
          exact absurd rfl (ho question)
        | some answer =>
          rw [step_input_of_some ha] at hs
          contradiction
      exact run_succ_of_stop he

/-- With some of the consulted answers left out, the run is parked on the first of them. -/
theorem run_parked_of_missing {answers others : Answers} {gas turns : Nat} {control : Control}
    {m : Machine} {missing : String}
    (hc : ∀ text ∈ m.consulted answers gas control,
      others.get? text = answers.get? text ∨ others.get? text = none)
    (hm : (m.consulted answers gas control).find? (fun text => !others.contains text) =
      some missing) :
    ∃ question, question.text = missing ∧
      (m.run others gas turns control).outcome = .parked question := by
  induction gas generalizing turns control m with
  | zero => simp [consulted] at hm
  | succ gas ih =>
    cases hs : m.step answers control with
    | stop outcome m' =>
      rw [consulted_succ_of_stop hs] at hm
      contradiction
    | next next m' =>
      rw [consulted_succ_of_next hs] at hc hm
      cases hq : control.question? with
      | none =>
        have he : m.step others control = .next next m' := by
          rw [← hs]
          exact step_congr (by simp [hq])
        rw [run_succ_of_next he]
        simp only [hq, Option.map_none, Option.toList_none, List.nil_append] at hc hm
        exact ih hc hm
      | some question =>
        simp only [hq, Option.map_some, Option.toList_some, List.cons_append, List.nil_append,
          List.find?_cons] at hc hm
        -- Either this is the first question left out, or it is answered as before.
        cases ha : others.get? question.text with
        | none =>
          obtain ⟨scope, rfl⟩ := Control.question?_eq_some hq
          simp only [Answers.contains, ha, Option.isSome_none, Bool.not_false,
            Option.some.injEq] at hm
          refine ⟨question, hm, ?_⟩
          rw [run_succ_of_stop (step_input_of_none ha)]
        | some answer =>
          have he : m.step others control = .next next m' := by
            rw [← hs]
            apply step_congr
            intro asked hasked
            obtain rfl : question = asked := by
              rw [hq] at hasked
              exact Option.some.inj hasked
            have h := hc question.text (by simp)
            simpa [ha] using h
          rw [run_succ_of_next he]
          simp only [Answers.contains, ha, Option.isSome_some, Bool.not_true] at hm
          exact ih (fun text ht => hc text (by simp [ht])) hm

end Machine

end Inquiry
