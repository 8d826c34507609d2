import Inquiry.Derivation.Trace
import Inquiry.Heap.Reveal
import Inquiry.Proofs.Machine.Consultation
set_option autoImplicit false

namespace Inquiry

namespace Pass

def Results (pass : Pass) (v : Value) (trace : Trace) : Prop :=
  ∃ d, pass.outcome = .finished d ∧ d ≠ .undefined ∧ pass.machine.heap.reveal d = v ∧
    pass.machine.tape.decode = .ok trace

/-- Goes on with a pass that is parked on a question answered by now. -/
def proceed (config : Config) (answers : Answers) (pass : Pass) : Pass :=
  match pass.outcome with
  | .parked question =>
    match answers.get? question.text with
    | some answer => pass.resume config answer answers
    | none => pass
  | _ => pass

theorem proceed_of_not_parked {config : Config} {answers : Answers} {pass : Pass}
    (h : ∀ question, pass.outcome ≠ .parked question) : pass.proceed config answers = pass := by
  unfold proceed
  split
  · rename_i question hq
    exact absurd hq (h question)
  · rfl

theorem proceed_of_none {config : Config} {answers : Answers} {pass : Pass} {question : Question}
    (ho : pass.outcome = .parked question) (ha : answers.get? question.text = none) :
    pass.proceed config answers = pass := by
  simp [proceed, ho, ha]

theorem proceed_of_some {config : Config} {answers : Answers} {pass : Pass} {question : Question}
    {answer : Answer} (ho : pass.outcome = .parked question)
    (ha : answers.get? question.text = some answer) :
    pass.proceed config answers = pass.resume config answer answers := by
  simp [proceed, ho, ha]

end Pass

theorem Machine.run_extend {answers more : Answers} (hm : answers.ExtendsTo more)
    (config : Config) {gas turns : Nat} (hg : config.gasLimit = gas + turns)
    (control : Control) (m : Machine) :
    m.run more gas turns control = (m.run answers gas turns control).proceed config more := by
  induction gas generalizing turns control m with
  | zero => rfl
  | succ gas ih =>
    cases hq : control.question? with
    | none =>
      have he : m.step more control = m.step answers control := step_congr (by simp [hq])
      cases hs : m.step answers control with
      | next next m' =>
        rw [run_succ_of_next (he.trans hs), run_succ_of_next hs]
        exact ih (by omega) next m'
      | stop outcome m' =>
        rw [run_succ_of_stop (he.trans hs), run_succ_of_stop hs, Pass.proceed_of_not_parked]
        intro question ho
        simp only at ho
        subst ho
        obtain ⟨scope, rfl, _, _⟩ := step_eq_parked_iff.mp hs
        simp [Control.question?] at hq
    | some question =>
      obtain ⟨scope, rfl⟩ := Control.question?_eq_some hq
      cases ha : answers.get? question.text with
      | some answer =>
        have hmore := hm question.text answer ha
        rw [run_succ_of_next (step_input_of_some hmore), run_succ_of_next (step_input_of_some ha)]
        exact ih (by omega) _ _
      | none =>
        rw [run_succ_of_stop (step_input_of_none ha)]
        cases hmore : more.get? question.text with
        | none =>
          rw [run_succ_of_stop (step_input_of_none hmore), Pass.proceed_of_none rfl hmore]
        | some answer =>
          -- Resuming costs nothing: the turn that met the question is counted already.
          have hrest : config.gasLimit - (turns + 1) = gas := by omega
          rw [run_succ_of_next (step_input_of_some hmore), Pass.proceed_of_some rfl hmore]
          simp only [Pass.resume, hrest]

namespace Pass

variable {config : Config} {program : Program} {answers more : Answers} {pass : Pass}

theorem start_extend (hm : answers.ExtendsTo more) :
    start config program more = (start config program answers).proceed config more := by
  unfold start
  split
  · rfl
  · exact Machine.run_extend hm config rfl _ _

theorem get?_of_start_parked {question : Question}
    (h : (start config program answers).outcome = .parked question) :
    answers.get? question.text = none := by
  unfold start at h
  split at h
  · contradiction
  · exact Machine.get?_of_run_parked h

/-- What a host sees as one pass: it starts on some answers and each time it is parked goes on
with an answer to its question, together with whatever else was answered meanwhile. -/
inductive Interrupted (config : Config) (program : Program) : Answers → Pass → Prop where
  | start (answers : Answers) :
      Interrupted config program answers (Pass.start config program answers)
  | resume {answers more : Answers} {pass : Pass} {question : Question} {answer : Answer}
      (hp : Interrupted config program answers pass) (ho : pass.outcome = .parked question)
      (hm : answers.ExtendsTo more) (ha : more.get? question.text = some answer) :
      Interrupted config program more (pass.resume config answer more)

theorem Interrupted.eq_start (h : Interrupted config program answers pass) :
    pass = Pass.start config program answers := by
  induction h with
  | start answers => rfl
  | @resume answers more pass question answer _ ho hm ha ih =>
    subst ih
    rw [start_extend hm, proceed_of_some ho ha]

/-- An interrupted pass ends as the pass over the same program that was never parked before the
last of its answers were there. -/
theorem interrupted_as_uninterrupted (h : Interrupted config program answers pass) :
    let direct := Pass.start config program answers
    pass.outcome = direct.outcome ∧ pass.machine.heap = direct.machine.heap ∧
      pass.machine.stack = direct.machine.stack ∧ pass.machine.tape = direct.machine.tape ∧
      pass.machine.opened = direct.machine.opened ∧ pass.turns = direct.turns := by
  have he := h.eq_start
  subst he
  exact ⟨rfl, rfl, rfl, rfl, rfl, rfl⟩

def invoice : Program := ⟨[
  .bind ⟨0, "units"⟩ (.binary .add (.input ⟨"ordered", .number, ""⟩) (.number 1)),
  .expr (.record [.mk "total" ⟨1, "total"⟩
    (.binary .mul (.name ⟨0, "units"⟩) (.input ⟨"price", .number, ""⟩))])]⟩

theorem interrupted_as_uninterrupted_invoice :
    let config : Config := ⟨50, true, false⟩
    let ordered := Answers.empty.insert "ordered" (.number 2)
    let priced := ordered.insert "price" (.number 5)
    let parked := (start config invoice .empty).resume config (.number 2) ordered
    let pass := parked.resume config (.number 5) priced
    let direct := start config invoice priced
    Interrupted config invoice priced pass ∧ pass.outcome = .finished (.record ⟨0⟩) ∧
      pass.outcome = direct.outcome ∧ pass.machine.heap = direct.machine.heap ∧
      pass.machine.stack = direct.machine.stack ∧ pass.machine.tape = direct.machine.tape ∧
      pass.machine.opened = direct.machine.opened ∧ pass.turns = direct.turns := by
  intro config ordered priced parked pass direct
  have h₁ : (start config invoice .empty).outcome = .parked ⟨"ordered", .number, ""⟩ := by decide
  have h₂ : parked.outcome = .parked ⟨"price", .number, ""⟩ := by decide
  have hparked : Interrupted config invoice ordered parked :=
    .resume (.start .empty) h₁ (Answers.extendsTo_insert rfl) rfl
  have hpass : Interrupted config invoice priced pass :=
    .resume hparked h₂ (Answers.extendsTo_insert rfl) rfl
  have hdone : pass.outcome = .finished (.record ⟨0⟩) := by decide
  exact ⟨hpass, hdone, interrupted_as_uninterrupted hpass⟩

end Pass

end Inquiry
