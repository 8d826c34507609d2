import Inquiry.Config
import Inquiry.Machine
set_option autoImplicit false

/-!
Passes over a program: a machine, run until it stops. A pass that is parked on a question goes on
where it stopped once it is given the answer.
-/

namespace Inquiry

structure Pass where
  machine : Machine
  outcome : Outcome
  turns : Nat

/-- Takes turns until the machine stops. One turn more than there is gas for ends the pass. -/
def Machine.run (answers : Answers) : Nat → Nat → Control → Machine → Pass
  | 0, turns, _, m => ⟨m, .failed .gasExhausted, turns + 1⟩
  | gas + 1, turns, control, m =>
    match m.step answers control with
    | .next control m => Machine.run answers gas (turns + 1) control m
    | .stop outcome m => ⟨m, outcome, turns + 1⟩

namespace Pass

def start (config : Config) (program : Program) (answers : Answers) : Pass :=
  let m := Machine.initial config.captureTrace
  if program.body.isEmpty then ⟨m, .failed .emptyProgram, 0⟩
  else
    let (control, m) := m.enterBlock Heap.globalFrame [] program.body
    m.run answers config.gasLimit 0 control

/-- Goes on from a question with its answer. A pass that is not parked stays as it is. -/
def resume (config : Config) (answer : Answer) (answers : Answers) : Pass → Pass
  | ⟨m, .parked question, turns⟩ =>
    (m.emit (.input question.text answer.summary)).run answers (config.gasLimit - turns) turns
      (.give answer.datum)
  | pass => pass

section

variable {config : Config} {answer : Answer} {answers : Answers} {pass : Pass}

theorem resume_of_parked {question : Question} (h : pass.outcome = .parked question) :
    pass.resume config answer answers =
      (pass.machine.emit (.input question.text answer.summary)).run answers
        (config.gasLimit - pass.turns) pass.turns (.give answer.datum) := by
  obtain ⟨m, outcome, turns⟩ := pass
  simp only at h
  subst h
  rfl

theorem resume_of_not_parked (h : ∀ question, pass.outcome ≠ .parked question) :
    pass.resume config answer answers = pass := by
  obtain ⟨m, outcome, turns⟩ := pass
  cases outcome with
  | parked question => exact absurd rfl (h question)
  | _ => rfl

end

end Pass

end Inquiry
