import Inquiry.Proofs.ByNeed.Simulation
import Inquiry.Proofs.Pass.Gas
import Inquiry.Proofs.Pass.Interruption
set_option autoImplicit false

/-!
A pass refines evaluation by recursion. Given gas enough, it stops exactly where the evaluator comes
to an end: with the same value on the same heap, with the same error, or at the same question. It
runs out of any gas exactly if no derivation is high enough.
-/

namespace Inquiry

namespace Turn

variable {answers : Answers}

def machine : Turn → Machine
  | .next _ m => m
  | .stop _ m => m

/-- What is reported if there is no gas for more turns. -/
def outcome : Turn → Outcome
  | .next _ _ => .failed .gasExhausted
  | .stop outcome _ => outcome

theorem later_of_stop {a b : Nat} (hab : a ≤ b) {t : Turn} {outcome : Outcome} {m : Machine}
    (h : t.later answers a = .stop outcome m) : t.later answers b = .stop outcome m := by
  obtain ⟨d, rfl⟩ := Nat.exists_eq_add_of_le hab
  rw [later_add, h, later_stop]

theorem ofEvaluation_of_later {k : Nat} {control : Control} {m m' : Machine} {e : EvalError}
    (h : (Turn.next control m).later answers k = .stop (.failed e) m') :
    e.ofEvaluation = true := by
  induction k generalizing control m with
  | zero => contradiction
  | succ k ih =>
    cases hs : m.step answers control with
    | next control₁ m₁ =>
      simp only [later, hs] at h
      exact ih h
    | stop outcome m₁ =>
      simp only [later, hs, later_stop] at h
      cases h
      exact Machine.ofEvaluation_of_step hs

end Turn

theorem Machine.run_as_later (answers : Answers) (gas turns : Nat) (control : Control)
    (m : Machine) :
    (m.run answers gas turns control).outcome =
        ((Turn.next control m).later answers gas).outcome ∧
      (m.run answers gas turns control).machine =
        ((Turn.next control m).later answers gas).machine := by
  induction gas generalizing turns control m with
  | zero => exact ⟨rfl, rfl⟩
  | succ gas ih =>
    cases hs : m.step answers control with
    | next next m' =>
      rw [run_succ_of_next hs]
      simp only [Turn.later, hs]
      exact ih (turns + 1) next m'
    | stop outcome m' =>
      rw [run_succ_of_stop hs]
      simp only [Turn.later, hs, Turn.later_stop]
      exact ⟨rfl, rfl⟩

def Program.firstTurn (program : Program) (captureTrace : Bool) : Turn :=
  let m := Machine.initial captureTrace
  if program.body.isEmpty then .stop (.failed .emptyProgram) m
  else
    let (control, m) := m.enterBlock Heap.globalFrame [] program.body
    .next control m

namespace Pass

variable {config : Config} {program : Program} {answers : Answers}

theorem start_as_later (config : Config) (program : Program) (answers : Answers) :
    (start config program answers).outcome =
        ((program.firstTurn config.captureTrace).later answers config.gasLimit).outcome ∧
      (start config program answers).machine =
        ((program.firstTurn config.captureTrace).later answers config.gasLimit).machine := by
  unfold start Program.firstTurn
  by_cases hb : program.body.isEmpty = true
  · simp only [hb, if_true, Turn.later_stop]
    exact ⟨rfl, rfl⟩
  · simp only [hb]
    exact Machine.run_as_later _ _ _ _ _

theorem program_follows (program : Program) (captureTrace : Bool) (answers : Answers)
    (height : Nat) :
    (program.firstTurn captureTrace).Follows answers height
      (fun d s => .stop (.finished d) ⟨s.heap, [], s.tape, []⟩)
      (ByNeed.evaluateProgram answers height program captureTrace) := by
  unfold Program.firstTurn ByNeed.evaluateProgram
  by_cases hb : program.body.isEmpty = true
  · simp only [hb, if_true]
    exact ⟨0, _, rfl⟩
  · simp only [hb]
    refine .bind (ByNeed.body_follows _ _ _ _ (ByNeed.evaluate_follows answers height))
      fun d s => ?_
    refine .bind (ByNeed.complete_follows answers height d ⟨s.heap, [], s.tape, []⟩)
      fun _ s' => ⟨1, rfl⟩

/-- The pass stopped where an evaluation comes to its end. -/
def EndsAs (pass : Pass) : Except Halt (Datum × ByNeed.Store) → Prop
  | .ok (d, s) =>
    pass.outcome = .finished d ∧ pass.machine.heap = s.heap ∧ pass.machine.tape = s.tape
  | .error halt => pass.outcome = halt.outcome

theorem EndsAs.unique {pass : Pass} {r r' : Except Halt (Datum × ByNeed.Store)}
    (h : pass.EndsAs r) (h' : pass.EndsAs r') : r = r' := by
  match r, r' with
  | .ok (d, ⟨heap, tape⟩), .ok (d', ⟨heap', tape'⟩) =>
    obtain ⟨ho, rfl, rfl⟩ := h
    obtain ⟨ho', rfl, rfl⟩ := h'
    cases ho.symm.trans ho'
    rfl
  | .ok (d, _), .error halt =>
    have hd := h.1.symm.trans h'
    cases halt <;> contradiction
  | .error halt, .ok (d, _) =>
    have hd := h'.1.symm.trans h
    cases halt <;> contradiction
  | .error halt, .error halt' =>
    have hh : halt.outcome = halt'.outcome := h.symm.trans h'
    cases halt <;> cases halt' <;> cases hh <;> rfl

theorem start_of_le {gas more : Nat} (hg : gas ≤ more)
    (ho : (start (config.withGasLimit gas) program answers).outcome ≠ .failed .gasExhausted) :
    (start (config.withGasLimit more) program answers).outcome =
        (start (config.withGasLimit gas) program answers).outcome ∧
      (start (config.withGasLimit more) program answers).machine =
        (start (config.withGasLimit gas) program answers).machine := by
  have heq : start (config.withGasLimit more) program answers =
      start (config.withGasLimit gas) program answers := start_withGasLimit hg ho
  rw [heq]
  exact ⟨rfl, rfl⟩

theorem EndsAs.congr {pass pass' : Pass} {r : Except Halt (Datum × ByNeed.Store)}
    (ho : pass'.outcome = pass.outcome ∧ pass'.machine = pass.machine) :
    pass'.EndsAs r ↔ pass.EndsAs r := by
  unfold EndsAs
  rw [ho.1, ho.2]

theorem later_ne_gasExhausted {captureTrace : Bool} {k : Nat} {m : Machine} :
    (program.firstTurn captureTrace).later answers k ≠ .stop (.failed .gasExhausted) m := by
  unfold Program.firstTurn
  intro h
  split at h
  · rw [Turn.later_stop] at h
    cases h
  · cases Turn.ofEvaluation_of_later h

theorem endsAs_of_evaluated {height : Nat} {r : Except Halt (Datum × ByNeed.Store)}
    (h : ByNeed.evaluateProgram answers height program config.captureTrace = some r) :
    ∃ enough, ∀ gas, enough ≤ gas →
      let pass := start (config.withGasLimit gas) program answers
      pass.EndsAs r ∧ pass.outcome ≠ .failed .gasExhausted := by
  have hf := program_follows program config.captureTrace answers height
  rw [h] at hf
  have hstop : ∃ k outcome m,
      (program.firstTurn config.captureTrace).later answers k = .stop outcome m ∧
        ∀ turns, (Pass.mk m outcome turns).EndsAs r := by
    match r with
    | .ok (d, s) =>
      obtain ⟨k, hk⟩ := hf
      exact ⟨k, _, _, hk, fun _ => ⟨rfl, rfl, rfl⟩⟩
    | .error halt =>
      obtain ⟨k, m, hk⟩ := hf
      exact ⟨k, _, m, hk, fun _ => rfl⟩
  obtain ⟨k, outcome, m, hk, hr⟩ := hstop
  refine ⟨k, fun gas hg => ?_⟩
  have hl := Turn.later_of_stop hg hk
  have ho := start_as_later (config.withGasLimit gas) program answers
  rw [show (program.firstTurn (config.withGasLimit gas).captureTrace).later answers
    (config.withGasLimit gas).gasLimit = .stop outcome m from hl] at ho
  refine ⟨(EndsAs.congr ho).mpr (hr 0), fun he => ?_⟩
  obtain rfl : outcome = .failed .gasExhausted := ho.1.symm.trans he
  exact later_ne_gasExhausted hl

theorem gasExhausted_of_tooHigh {gas : Nat}
    (h : ByNeed.evaluateProgram answers gas program config.captureTrace = none) :
    (start (config.withGasLimit gas) program answers).outcome = .failed .gasExhausted := by
  have hf := program_follows program config.captureTrace answers gas
  rw [h] at hf
  obtain ⟨control, m, hl⟩ := hf
  rw [(start_as_later _ _ _).1]
  exact congrArg Turn.outcome hl

theorem evaluated_of_start {gas : Nat}
    (ho : (start (config.withGasLimit gas) program answers).outcome ≠ .failed .gasExhausted) :
    ∃ r, ByNeed.evaluateProgram answers gas program config.captureTrace = some r ∧
      (start (config.withGasLimit gas) program answers).EndsAs r := by
  cases he : ByNeed.evaluateProgram answers gas program config.captureTrace with
  | none => exact absurd (gasExhausted_of_tooHigh he) ho
  | some r =>
    obtain ⟨enough, hends⟩ := endsAs_of_evaluated he
    have hmore := (hends (max enough gas) (Nat.le_max_left _ _)).1
    exact ⟨r, rfl, (EndsAs.congr (start_of_le (Nat.le_max_right enough gas) ho)).mp hmore⟩

/-- With gas that is not used up, a pass ends as the evaluation of its program does: at the same
value with the same heap and the same tape, with the same error, or at the same question. There is
gas enough if and only if the evaluation has a derivation of finite height. -/
theorem refines_evaluation (config : Config) (program : Program) (answers : Answers) :
    let pass gas := start (config.withGasLimit gas) program answers
    let evaluated height := ByNeed.evaluateProgram answers height program config.captureTrace
    (∀ gas, (pass gas).outcome ≠ .failed .gasExhausted →
      ∀ result, (pass gas).EndsAs result ↔ ∃ height, evaluated height = some result) ∧
    (∀ result height, evaluated height = some result →
      ∃ enough, ∀ gas, enough ≤ gas → (pass gas).EndsAs result) ∧
    ((∀ gas, (pass gas).outcome = .failed .gasExhausted) ↔ ∀ height, evaluated height = none) := by
  intro pass evaluated
  refine ⟨fun gas ho result => ⟨fun hr => ?_, fun ⟨height, he⟩ => ?_⟩, fun result height he => ?_,
    fun hall height => ?_, fun hall gas => gasExhausted_of_tooHigh (hall gas)⟩
  · obtain ⟨found, he, hfound⟩ := evaluated_of_start ho
    exact ⟨gas, he.trans (congrArg some (hfound.unique hr))⟩
  · obtain ⟨enough, hends⟩ := endsAs_of_evaluated he
    have hmore := (hends (max enough gas) (Nat.le_max_left _ _)).1
    exact (EndsAs.congr (start_of_le (Nat.le_max_right enough gas) ho)).mp hmore
  · obtain ⟨enough, hends⟩ := endsAs_of_evaluated he
    exact ⟨enough, fun gas hg => (hends gas hg).1⟩
  · cases he : evaluated height with
    | none => rfl
    | some found =>
      obtain ⟨enough, hends⟩ := endsAs_of_evaluated he
      exact absurd (hall enough) (hends enough (Nat.le_refl _)).2

theorem refines_evaluation_invoice :
    let config : Config := ⟨50, true, false⟩
    let priced := (Answers.empty.insert "ordered" (.number 2)).insert "price" (.number 5)
    let pass := start config invoice priced
    pass.outcome = .finished (.record ⟨0⟩) ∧ pass.outcome ≠ .failed .gasExhausted ∧
      ∃ height, ByNeed.evaluateProgram priced height invoice true =
        some (.ok (.record ⟨0⟩, ⟨pass.machine.heap, pass.machine.tape⟩)) := by
  intro config priced pass
  have hdone : pass.outcome = .finished (.record ⟨0⟩) := by decide
  have hgas : pass.outcome ≠ .failed .gasExhausted := by rw [hdone]; nofun
  have hends := (refines_evaluation config invoice priced).1 50 hgas
    (.ok (.record ⟨0⟩, ⟨pass.machine.heap, pass.machine.tape⟩))
  exact ⟨hdone, hgas, hends.mp ⟨hdone, rfl, rfl⟩⟩

end Pass

end Inquiry
