import Inquiry.Proofs.Distinct
import Inquiry.Proofs.Pass.Parts
import Inquiry.Proofs.Session.Driving
set_option autoImplicit false

namespace Inquiry

open Dialogue

/-- Whether some pass over the program, with some answers, is parked on the question. -/
def Program.Asks (program : Program) (question : Question) : Prop :=
  ∃ captureTrace m, Pass.Reaches captureTrace program (.parked question) m

variable {program : Program} {config : Config} {log : List Exchange} {s : Session}
  {request : Request}

theorem Program.Asks.mem_questions {question : Question} (h : program.Asks question) :
    question.text ∈ program.questions.map Question.text := by
  obtain ⟨captureTrace, m, hreaches⟩ := h
  exact Program.mem_questions.mpr (List.mem_map.mpr ⟨question, hreaches.mem_mentions, rfl⟩)

theorem Program.isSome_question? {text : String}
    (h : text ∈ program.questions.map Question.text) : (program.question? text).isSome := by
  obtain ⟨q, hq, rfl⟩ := List.mem_map.mp h
  rw [Program.question?, List.find?_isSome]
  exact ⟨q, hq, beq_self_eq_true _⟩

namespace History

theorem ne_unknown (h : History program config log s) {text : String}
    (hr : request.question? = some text) (hq : text ∈ program.questions.map Question.text)
    (other : String) : (s.handle request).result ≠ .error (.unknownQuestion other) := by
  intro he
  have hreaction := Session.handle_reaction s request
  have hu := h.underway
  generalize s.handle request = reply at hreaction he
  cases hreaction with
  | evaluated hs => contradiction
  | resumed _ _ hp _ _ hs =>
    have hrefuses := hs.refuses ((hu.parked _ hp).resume _ _ _) (map_eq_error he)
    contradiction
  | unknown hr' _ hnone =>
    have hsome := Program.isSome_question? hq
    rw [hr, Option.some.injEq] at hr'
    rw [hr', ← hu.program_eq, hnone] at hsome
    contradiction
  | mismatched _ _ _ _ hk | aheadMismatched _ _ _ hk =>
    rw [Session.eq_of_checkKind hk] at he
    cases he
  | _ => cases he

theorem asks_of_issued (h : History program config log s) {c : Continuation}
    (hc : c ∈ issued log) :
    ∃ question, program.Asks question ∧ question.text = c.question ∧ question.kind = c.kind := by
  induction h with
  | new => contradiction
  | @exchange log s request h ih =>
    rcases mem_issued_cons hc with hpending | hc
    · have h' : History program config _ _ := .exchange request h
      obtain ⟨p, hp, rfl⟩ := Option.map_eq_some_iff.mp hpending
      obtain ⟨question, ho, hcont, _⟩ := h'.orderly.parked p hp
      rw [hcont]
      exact ⟨question, ⟨_, _, (h'.underway.parked p hp).parked ho⟩, rfl, rfl⟩
    · exact ih hc

end History

/-- Wherever a pass stands, all that its machine holds is part of the program. So whatever a pass
asks occurs in the program and is among its questions, and no session that is asked about it says
that it does not know the question. Every continuation is for what some pass asks. -/
theorem Program.never_unknown (program : Program) :
    (∀ captureTrace standing m, Pass.Reaches captureTrace program standing m →
      ∀ e ∈ standing.exprs ++ m.exprs, (Expr.block program.body).PartOf e) ∧
    (∀ question, program.Asks question →
      (Expr.block program.body).PartOf (.input question) ∧
      question.text ∈ program.questions.map Question.text ∧
      ∀ config log s, History program config log s → ∀ request : Request,
        request.question? = some question.text →
          ∀ text, (s.handle request).result ≠ .error (.unknownQuestion text)) ∧
    ∀ config log s, History program config log s → ∀ c ∈ issued log,
      ∃ question, program.Asks question ∧ question.text = c.question ∧
        question.kind = c.kind := by
  refine ⟨fun _ _ _ h => h.partOf, ?_, fun _ _ _ h _ hc => h.asks_of_issued hc⟩
  intro question ha
  obtain ⟨captureTrace, m, hreaches⟩ := ha
  have hpart := hreaches.partOf (.input question) (List.mem_append_left _ List.mem_cons_self)
  have hmem := Program.Asks.mem_questions ⟨captureTrace, m, hreaches⟩
  exact ⟨hpart, hmem, fun _ _ _ h _ hr => h.ne_unknown hr hmem⟩

theorem Program.never_unknown_invoice :
    let config : Config := ⟨50, true, false⟩
    let ordered : Question := ⟨"ordered", .number, ""⟩
    let units : Expr := .binary .add (.input ordered) (.number 1)
    let asked := (Session.new Pass.invoice config).handle .evaluate
    asked.session.pending = some ⟨"ordered", .number, 1, 1⟩ ∧
      (∃ question, Pass.invoice.Asks question ∧ question.text = "ordered" ∧
        "ordered" ∈ Pass.invoice.questions.map Question.text) ∧
      (∃ m, Pass.Reaches true Pass.invoice (.parked ordered) m ∧ units ∈ m.exprs ∧
        (Expr.block Pass.invoice.body).PartOf units) ∧
      (asked.session.handle (.validate "ordered")).result ≠
        .error (.unknownQuestion "ordered") := by
  intro config ordered units asked
  obtain ⟨hparts, hquestions, hissued⟩ := Program.never_unknown Pass.invoice
  have h : History Pass.invoice config [⟨.evaluate, asked⟩] asked.session := .exchange _ .new
  obtain ⟨question, hasks, htext, _⟩ :=
    hissued config _ _ h ⟨"ordered", .number, 1, 1⟩ (by decide +kernel)
  replace htext : question.text = "ordered" := htext
  obtain ⟨_, hmem, hknown⟩ := hquestions question hasks
  have ho : (Pass.start config Pass.invoice .empty).outcome = .parked ordered := by decide +kernel
  have hreaches := (Pass.reached_start config Pass.invoice .empty).parked ho
  have hunits : units ∈ (Pass.start config Pass.invoice .empty).machine.exprs := List.mem_cons_self
  refine ⟨by decide +kernel, ⟨question, hasks, htext, htext ▸ hmem⟩,
    ⟨_, hreaches, hunits, hparts _ _ _ hreaches _ (List.mem_append_right _ hunits)⟩, ?_⟩
  exact hknown config _ _ h (.validate "ordered") (by rw [htext]; rfl) "ordered"

end Inquiry
