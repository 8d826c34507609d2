import Inquiry.Proofs.Distinct
import Inquiry.Proofs.Pass.Derivation
set_option autoImplicit false

namespace Inquiry

namespace Pass

variable {config : Config} {program : Program} {answers others : Answers} {pass : Pass}

theorem start_congr
    (hc : ∀ text ∈ consulted config program answers, others.get? text = answers.get? text)
    (ho : ∀ question, (start config program answers).outcome ≠ .parked question) :
    start config program others = start config program answers := by
  unfold start at ho ⊢
  split
  · rfl
  · rename_i hb
    simp only [hb] at ho
    exact Machine.run_congr hc ho

theorem start_parked_of_missing {missing : String}
    (hb : program.body ≠ [])
    (hc : ∀ text ∈ consulted config program answers,
      others.get? text = answers.get? text ∨ others.get? text = none)
    (hm : (consulted config program answers).find? (fun text => !others.contains text) =
      some missing) :
    ∃ question, question.text = missing ∧
      (start config program others).outcome = .parked question := by
  have he : program.body.isEmpty = false := by simpa using hb
  simp only [start, he]
  exact Machine.run_parked_of_missing hc hm

theorem inputs_eq {v : Value} {trace : Trace} (ht : config.captureTrace = true)
    (hr : (start config program answers).Results v trace) :
    trace.inputs = distinctBy id (consulted config program answers) := by
  obtain ⟨d, ho, _, _, hdecode⟩ := hr
  obtain ⟨found, hfound, _, _, hinputs⟩ := (derives_of_finished ht ho).decode
  rw [hdecode] at hfound
  obtain rfl : trace = found := Except.ok.inj hfound
  exact hinputs

/-- The inputs of a derivation are what its result depends on. On any answers that say the same
about them a new pass is the same, down to the turns it takes. On answers that lack some of them
and say nothing else about the others, it is parked on the first one that is missing. -/
theorem result_depends_on_inputs {v : Value} {trace : Trace}
    (hp : Interrupted config program answers pass) (ht : config.captureTrace = true)
    (hr : pass.Results v trace) :
    (∀ others : Answers,
      (∀ text ∈ trace.inputs, others.get? text = answers.get? text) →
        start config program others = pass) ∧
    (∀ others : Answers,
      (∀ text ∈ trace.inputs, ∀ a, others.get? text = some a → answers.get? text = some a) →
      (∃ text ∈ trace.inputs, others.get? text = none) →
        ∃ question, (start config program others).outcome = .parked question ∧
          trace.inputs.find? (fun text => !others.contains text) = some question.text) := by
  have he := hp.eq_start
  subst he
  have hinputs := inputs_eq ht hr
  obtain ⟨d, ho, _, _, _⟩ := hr
  constructor
  · intro others hsame
    apply start_congr
    · intro text hc
      exact hsame text (by rw [hinputs, mem_distinctBy]; exact hc)
    · intro question hq
      rw [ho] at hq
      contradiction
  · rintro others hsame ⟨lacking, hl, hnone⟩
    have hb : program.body ≠ [] := by
      intro hn
      simp [start, hn] at ho
    have hc : ∀ text ∈ consulted config program answers,
        others.get? text = answers.get? text ∨ others.get? text = none := by
      intro text ht
      cases hg : others.get? text with
      | none => exact .inr rfl
      | some a =>
        have hi : text ∈ trace.inputs := by
          rw [hinputs, mem_distinctBy]
          exact ht
        exact .inl (hsame text hi a hg).symm
    have hfind : (trace.inputs.find? fun text => !others.contains text).isSome := by
      rw [List.find?_isSome]
      exact ⟨lacking, hl, by simp [Answers.contains, hnone]⟩
    obtain ⟨missing, hm⟩ := Option.isSome_iff_exists.mp hfind
    -- The first input that is missing is also the first missing question that is consulted.
    rw [hinputs, find?_distinctBy] at hm
    obtain ⟨question, hq, hparked⟩ := start_parked_of_missing hb hc hm
    refine ⟨question, hparked, ?_⟩
    rw [hinputs, find?_distinctBy, hm, hq]

theorem result_depends_on_inputs_invoice :
    let config : Config := ⟨50, true, false⟩
    let priced := (Answers.empty.insert "ordered" (.number 2)).insert "price" (.number 5)
    let pass := start config invoice priced
    let hurried := priced.insert "express" (.boolean true)
    let unordered := Answers.empty.insert "price" (.number 5)
    ∃ v trace, pass.Results v trace ∧ trace.inputs = ["ordered", "price"] ∧
      start config invoice hurried = pass ∧
      ∃ question, (start config invoice unordered).outcome = .parked question ∧
        trace.inputs.find? (fun text => !unordered.contains text) = some question.text := by
  intro config priced pass hurried unordered
  have hdone : pass.outcome = .finished (.record ⟨0⟩) := by decide
  obtain ⟨trace, hdecode, _⟩ := (derives_of_finished rfl hdone).decode
  have hr : pass.Results (pass.machine.heap.reveal (.record ⟨0⟩)) trace :=
    ⟨.record ⟨0⟩, hdone, by simp, rfl, hdecode⟩
  have hconsulted : distinctBy id (consulted config invoice priced) = ["ordered", "price"] := by
    decide
  have hinputs : trace.inputs = ["ordered", "price"] := (inputs_eq rfl hr).trans hconsulted
  obtain ⟨hsame, hmissing⟩ := result_depends_on_inputs (.start priced) rfl hr
  refine ⟨_, trace, hr, hinputs, hsame hurried ?_, hmissing unordered ?_ ?_⟩
  · rw [hinputs]
    decide
  · rw [hinputs]
    decide
  · rw [hinputs]
    exact ⟨"ordered", by simp, rfl⟩

end Pass

end Inquiry
