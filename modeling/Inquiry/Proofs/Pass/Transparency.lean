import Mathlib.Tactic.TFAE
import Inquiry.Proofs.ByName.Completion
import Inquiry.Proofs.Pass.Refinement
set_option autoImplicit false

namespace Inquiry

namespace Pass

variable {config : Config} {program : Program} {answers : Answers}

/-- What the host sees of a pass: the value of its result, or why there is none. -/
def Shows (pass : Pass) : Except Halt Value → Prop
  | .ok v => ∃ d, pass.outcome = .finished d ∧ pass.machine.heap.reveal d = v
  | .error e => pass.outcome = e.outcome

theorem Shows.ne_gasExhausted {pass : Pass} {r : Except Halt Value} (h : pass.Shows r)
    (hg : r ≠ .error (.failed .gasExhausted)) : pass.outcome ≠ .failed .gasExhausted := by
  intro ho
  match r with
  | .ok v =>
    obtain ⟨d, hd, _⟩ := h
    cases ho.symm.trans hd
  | .error (.asked question) => cases ho.symm.trans h
  | .error (.failed e) =>
    cases ho.symm.trans h
    exact hg rfl

theorem EndsAs.shown {pass : Pass} {found : Except Halt (Datum × ByNeed.Store)}
    (he : pass.EndsAs found) {r : Except Halt Value} (h : pass.Shows r) :
    r = found.map fun p => p.2.heap.reveal p.1 := by
  match found, r with
  | .ok (d, s), .ok v =>
    obtain ⟨ho, hheap, _⟩ := he
    obtain ⟨d', ho', rfl⟩ := h
    cases ho.symm.trans ho'
    rw [hheap]
    rfl
  | .ok (d, s), .error e =>
    have ho := he.1.symm.trans h
    cases e <;> cases ho
  | .error e, .ok v =>
    obtain ⟨d, ho, _⟩ := h
    have ho := ho.symm.trans he
    cases e <;> cases ho
  | .error e, .error e' =>
    have ho : e.outcome = e'.outcome := he.symm.trans h
    cases e <;> cases e' <;> cases ho <;> rfl

theorem EndsAs.shows {pass : Pass} {found : Except Halt (Datum × ByNeed.Store)}
    (he : pass.EndsAs found) : pass.Shows (found.map fun p => p.2.heap.reveal p.1) := by
  match found with
  | .ok (d, s) =>
    obtain ⟨ho, hheap, _⟩ := he
    exact ⟨d, ho, by rw [hheap]⟩
  | .error e => exact he

/-- Where an evaluation with a store ends, evaluation without one finds what is shown, unless it is
a cycle; then it finds nothing. -/
theorem found_of_evaluated {height : Nat} {captureTrace : Bool}
    {found : Except Halt (Datum × ByNeed.Store)}
    (h : ByNeed.evaluateProgram answers height program captureTrace = some found) :
    (∃ name, found = .error (.failed (.cyclicEvaluation name)) ∧
      ∀ k, ByName.evaluateProgram answers k program = none) ∨
    (∀ name, found ≠ .error (.failed (.cyclicEvaluation name))) ∧
      ∃ k, ByName.evaluateProgram answers k program =
        some (found.map fun p => p.2.heap.reveal p.1) := by
  have hmatches := ByName.program_matches answers height program captureTrace
  rw [h] at hmatches
  match found with
  | .ok (d, s) =>
    obtain ⟨n, hn⟩ := hmatches
    exact .inr ⟨nofun, n, hn n (Nat.le_refl n)⟩
  | .error e =>
    simp only [ByName.Halts] at hmatches
    split at hmatches
    · rename_i hc
      cases e with
      | asked question => cases hc
      | failed e =>
        cases e with
        | cyclicEvaluation name => exact .inl ⟨name, rfl, hmatches.never⟩
        | _ => cases hc
    · rename_i hc
      obtain ⟨n, hn⟩ := hmatches
      refine .inr ⟨fun name heq => ?_, n, hn n (Nat.le_refl n)⟩
      cases heq
      exact hc rfl

theorem found_of_shows {gas : Nat} {r : Except Halt Value}
    (hc : ∀ name, r ≠ .error (.failed (.cyclicEvaluation name)))
    (hg : r ≠ .error (.failed .gasExhausted))
    (h : (start (config.withGasLimit gas) program answers).Shows r) :
    ∃ height, ByName.evaluateProgram answers height program = some r := by
  obtain ⟨found, he, hends⟩ := evaluated_of_start (h.ne_gasExhausted hg)
  obtain rfl := hends.shown h
  rcases found_of_evaluated he with ⟨name, rfl, _⟩ | ⟨_, hfound⟩
  · exact absurd rfl (hc name)
  · exact hfound

theorem shows_of_found {height : Nat} {r : Except Halt Value}
    (h : ByName.evaluateProgram answers height program = some r) :
    ∃ enough, ∀ gas, enough ≤ gas →
      (start (config.withGasLimit gas) program answers).Shows r := by
  cases he : ByNeed.evaluateProgram answers height program config.captureTrace with
  | none =>
    have hmatches := ByName.program_matches answers height program config.captureTrace
    rw [he] at hmatches
    cases h.symm.trans hmatches
  | some found =>
    obtain ⟨enough, hends⟩ := endsAs_of_evaluated he
    rcases found_of_evaluated he with ⟨name, _, hnone⟩ | ⟨_, k, hk⟩
    · cases h.symm.trans (hnone height)
    · obtain rfl := (ByName.program_steady answers program).unique hk h
      exact ⟨enough, fun gas hgas => (hends gas hgas).1.shows⟩

/-- Keeping values cannot be seen. Apart from cycles and the gas, what a pass shows with some gas it
shows with all that is more, and it is what evaluation without a store finds: the completed value,
the error, or the question that has no answer. Where a pass reports a cycle, evaluation without a
store finds nothing, however high its derivations may be. -/
theorem memoization_transparent (config : Config) (program : Program) (answers : Answers) :
    let pass gas := start (config.withGasLimit gas) program answers
    let named height := ByName.evaluateProgram answers height program
    (∀ r : Except Halt Value, (∀ name, r ≠ .error (.failed (.cyclicEvaluation name))) →
      r ≠ .error (.failed .gasExhausted) →
      [∃ gas, (pass gas).Shows r, ∃ enough, ∀ gas, enough ≤ gas → (pass gas).Shows r,
        ∃ height, named height = some r].TFAE) ∧
    ∀ gas name, (pass gas).outcome = .failed (.cyclicEvaluation name) →
      ∀ height, named height = none := by
  intro pass named
  constructor
  · intro r hc hg
    tfae_have 1 → 3 := fun ⟨gas, h⟩ => found_of_shows hc hg h
    tfae_have 3 → 2 := fun ⟨height, h⟩ => shows_of_found h
    tfae_have 2 → 1 := fun ⟨enough, h⟩ => ⟨enough, h enough (Nat.le_refl enough)⟩
    tfae_finish
  · intro gas name ho
    have hgas : (pass gas).outcome ≠ .failed .gasExhausted := by
      rw [ho]
      nofun
    obtain ⟨found, he, hends⟩ := evaluated_of_start hgas
    rcases found_of_evaluated he with ⟨_, _, hnone⟩ | ⟨hc, _⟩
    · exact hnone
    · obtain rfl : found = .error (.failed (.cyclicEvaluation name)) := hends.unique ho
      exact absurd rfl (hc name)

theorem memoization_transparent_invoice :
    let config : Config := ⟨50, true, false⟩
    let priced := (Answers.empty.insert "ordered" (.number 2)).insert "price" (.number 5)
    let v : Value := .record (.cons "total" (.number 15) .nil)
    let endless : Program := ⟨[
      .bind ⟨0, "depth"⟩ (.binary .add (.name ⟨0, "depth"⟩) (.number 1)),
      .expr (.name ⟨0, "depth"⟩)]⟩
    (start config invoice priced).Shows (.ok v) ∧
      (∃ height, ByName.evaluateProgram priced height invoice = some (.ok v)) ∧
      (start config endless .empty).outcome = .failed (.cyclicEvaluation "depth") ∧
      ∀ height, ByName.evaluateProgram .empty height endless = none := by
  intro config priced v endless
  have hshows : (start config invoice priced).Shows (.ok v) :=
    ⟨.record ⟨0⟩, by decide, by decide⟩
  have hcyclic : (start config endless .empty).outcome = .failed (.cyclicEvaluation "depth") := by
    decide
  have hsame := (memoization_transparent config invoice priced).1 (.ok v) nofun nofun
  have hfound := hsame.out 0 2
  exact ⟨hshows, hfound.mp ⟨50, hshows⟩, hcyclic,
    (memoization_transparent config endless .empty).2 50 "depth" hcyclic⟩

end Pass

end Inquiry
