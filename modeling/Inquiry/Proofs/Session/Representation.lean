import Inquiry.Proofs.Distinct
import Inquiry.Proofs.Pass.Parts
import Inquiry.Proofs.Session.Coherence
import Inquiry.Proofs.Session.Driving
set_option autoImplicit false

namespace Inquiry

open Dialogue

variable {program : Program} {config : Config} {log : List Exchange} {s : Session}

namespace Dialogue

theorem parked_on (h : Dialogue program config log s) {p : Parked} (hp : s.parked = some p) :
    ∃ question, p.pass.outcome = .parked question ∧
      p.continuation = s.continuationOf question ∧
      Pass.Reaches config.captureTrace program (.parked question) p.pass.machine ∧
      question ∈ Stmt.mentionsAll program.body := by
  obtain ⟨question, ho, hcont, _⟩ := h.orderly.parked p hp
  have hreached := h.history.underway.parked p hp
  exact ⟨question, ho, hcont, hreached.parked ho, hreached.mem_mentions ho⟩

/-- An exchange adds no answer but to a question that the program mentions, and one of its kind. -/
theorem mention_of_answered (h : Dialogue program config log s) {request : Request}
    (hh : request.Honest log) {text : String} {answer : Answer}
    (ha : (s.handle request).session.answers.get? text = some answer) :
    s.answers.get? text = some answer ∨
      ∃ q ∈ Stmt.mentionsAll program.body, q.text = text ∧ q.kind = answer.kind := by
  have hr := Session.handle_reaction s request
  generalize s.handle request = reply at hr ha
  cases hr with
  | evaluated hs =>
    simp only [Reply.map, hs.answers_eq] at ha
    exact .inl ha
  | @resumed _ c v parked given reply hr hg hp ht hk hs =>
    simp only [Reply.map, hs.answers_eq, Session.answered, Answers.get?_insert] at ha
    split at ha
    · rename_i htext
      cases ha
      obtain ⟨question, _, hcont, _, hmem⟩ := h.parked_on hp
      have hc : c = parked.continuation := Orderly.eq_continuation h.orderly hh hr hp ht
      obtain ⟨_, hkind⟩ := Session.answer_of_checkKind hk
      rw [hc, hcont] at htext hkind
      exact .inr ⟨question, hmem, htext.symm, hkind.symm⟩
    · exact .inl ha
  | ahead hn hq hc hk =>
    simp only [Answers.get?_insert] at ha
    split at ha
    · rename_i htext
      cases ha
      obtain ⟨hmem, hqt⟩ := Program.mentions_of_question? (h.history.underway.program_eq ▸ hq)
      obtain ⟨_, hkind⟩ := Session.answer_of_checkKind hk
      exact .inr ⟨_, hmem, hqt.trans htext.symm, hkind.symm⟩
    · exact .inl ha
  | invalidated hq =>
    simp only [Answers.get?_erase] at ha
    split at ha
    · contradiction
    · exact .inl ha
  | _ => exact .inl ha

theorem answered_mention (h : Dialogue program config log s) {text : String} {answer : Answer}
    (ha : s.answers.get? text = some answer) :
    ∃ q ∈ Stmt.mentionsAll program.body, q.text = text ∧ q.kind = answer.kind := by
  induction h with
  | new => contradiction
  | exchange request h hh ih =>
    rcases h.mention_of_answered hh ha with ha | hmem
    · exact ih ha
    · exact hmem

theorem answered_mem (h : Dialogue program config log s) {text : String} {answer : Answer}
    (ha : s.answers.get? text = some answer) : text ∈ program.questions.map Question.text := by
  obtain ⟨q, hq, rfl, _⟩ := h.answered_mention ha
  exact Program.mem_questions.mpr (List.mem_map_of_mem hq)

theorem mem_unresolved (h : Dialogue program config log s) {question : Question}
    (hm : question ∈ Stmt.mentionsAll program.body)
    (ha : s.answers.get? question.text = none) :
    ∃ q ∈ s.unresolved, q.text = question.text := by
  obtain ⟨q, hq, ht⟩ := List.mem_map.mp
    (Program.mem_questions.mpr (List.mem_map.mpr ⟨question, hm, rfl⟩))
  refine ⟨q, ?_, ht⟩
  simp only [Session.unresolved, Session.questions, List.mem_filter]
  rw [h.history.underway.program_eq]
  exact ⟨hq, by simp [Answers.contains, ht, ha]⟩

/-- A session is waiting for an answer just while a pass is parked on the question. The parked pass
has nothing to go on with but that answer; its continuation is the last one given out, and the
question is open. Every answer there is, is a number or a boolean for a question of the program. -/
theorem waiting_as_parked (h : Dialogue program config log s) :
    (∀ text, s.status = .waiting text ↔
      ∃ p, s.parked = some p ∧ p.continuation.question = text) ∧
    (∀ p, s.parked = some p → ∃ question, p.pass.outcome = .parked question ∧
      Pass.Reaches config.captureTrace program (.parked question) p.pass.machine ∧
      p.continuation = ⟨question.text, question.kind, s.generation, s.tickets⟩ ∧
      (∀ c ∈ issued log, c.ticket ≤ p.continuation.ticket) ∧
      s.answer? question.text = none ∧ ∃ q ∈ s.unresolved, q.text = question.text) ∧
    ∀ text v, s.answer? text = some v →
      ((∃ n, v = .number n) ∨ ∃ b, v = .boolean b) ∧ ∃ q ∈ s.questions, q.text = text := by
  refine ⟨?_, ?_, ?_⟩
  · intro text
    constructor
    · intro hs
      obtain ⟨p, hp⟩ := h.orderly.waiting text hs
      obtain ⟨question, _, hcont, hw⟩ := h.orderly.parked p hp
      rw [hs, Status.waiting.injEq] at hw
      refine ⟨p, hp, ?_⟩
      rw [hcont, hw]
      rfl
    · rintro ⟨p, hp, rfl⟩
      obtain ⟨question, _, hcont, hw⟩ := h.orderly.parked p hp
      rw [hw, hcont]
      rfl
  · intro p hp
    obtain ⟨question, ho, hcont, hreaches, hmem⟩ := h.parked_on hp
    have hnone : s.answers.get? question.text = none :=
      Pass.get?_of_start_parked (h.coherent.parked p hp ▸ ho)
    refine ⟨question, ho, hreaches, hcont, ?_, by simp [Session.answer?, hnone],
      h.mem_unresolved hmem hnone⟩
    intro c hc
    rw [hcont]
    exact h.orderly.tickets c hc
  · intro text v hv
    obtain ⟨answer, ha, rfl⟩ := Option.map_eq_some_iff.mp hv
    refine ⟨by cases answer <;> simp [Answer.value], ?_⟩
    have hq := h.answered_mem ha
    rw [← h.history.underway.program_eq] at hq
    exact List.mem_map.mp hq

theorem waiting_as_parked_invoice :
    let config : Config := ⟨50, true, false⟩
    let asked := ((Session.new Pass.invoice config).handle .evaluate).session
    let s := (asked.handle (.provide "price" (.number 5))).session
    (∃ log, Dialogue Pass.invoice config log s) ∧
      (∃ p, s.parked = some p ∧ p.continuation.question = "ordered" ∧
        ∃ question, p.pass.outcome = .parked question ∧
          Pass.Reaches true Pass.invoice (.parked question) p.pass.machine ∧
          p.continuation = ⟨question.text, question.kind, 1, 1⟩ ∧
          s.answer? question.text = none ∧ ∃ q ∈ s.unresolved, q.text = question.text) ∧
      s.answer? "price" = some (.number 5) ∧ ∃ q ∈ s.questions, q.text = "price" := by
  intro config asked s
  have h : Dialogue Pass.invoice config _ s :=
    .exchange _ (.exchange .evaluate .new trivial) trivial
  obtain ⟨hstatus, hparked, hanswers⟩ := Dialogue.waiting_as_parked h
  have hw : s.status = .waiting "ordered" := by decide +kernel
  have ha : s.answer? "price" = some (.number 5) := by decide +kernel
  obtain ⟨p, hp, hq⟩ := (hstatus "ordered").mp hw
  obtain ⟨question, ho, hreaches, hcont, _, hnone, hopen⟩ := hparked p hp
  exact ⟨⟨_, h⟩, ⟨p, hp, hq, question, ho, hreaches, hcont, hnone, hopen⟩, ha,
    (hanswers "price" _ ha).2⟩

end Dialogue

end Inquiry
