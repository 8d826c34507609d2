import Inquiry.Proofs.Building
import Inquiry.Proofs.Pass.Derivation
import Inquiry.Proofs.Session.Representation
set_option autoImplicit false

namespace Inquiry

open Dialogue

variable {program : Program} {config : Config} {log : List Exchange} {s before : Session}
  {request : Request} {pass : Pass}

theorem Rule.Justified.of_input {answers : Answers} {question : String} {v : Summary}
    {premises : List Summary} (h : Rule.Justified answers (.input question v) premises) :
    ∃ answer, answers.get? question = some answer ∧ v = answer.summary := by
  cases premises with
  | nil => exact h
  | cons => contradiction

theorem Pass.answer_of_input {answers : Answers} {v : Value} {trace : Trace}
    (h : (start config program answers).Results v trace) {node : Node} (hn : node ∈ trace.nodes)
    {text : String} {value : Summary} (hr : node.rule = .input text value) :
    ∃ answer, answers.get? text = some answer ∧ value = answer.summary := by
  obtain ⟨d, ho, _, _, hdecode⟩ := h
  cases ht : config.captureTrace with
  | true =>
    obtain ⟨_, hdecode', hj, _⟩ := (derives_of_finished ht ho).decode
    cases hdecode.symm.trans hdecode'
    obtain ⟨i, hi⟩ := Array.mem_iff_getElem?.mp hn
    have hnode := (hj i node hi).2
    rw [hr] at hnode
    exact hnode.of_input
  | false =>
    have hreaches := (reached_start config program answers).reaches (.finished d) (by rw [ho]; rfl)
    rw [ht] at hreaches
    rw [hreaches.tape_eq_empty] at hdecode
    cases hdecode
    simp at hn

namespace Dialogue

theorem eq_start_of_drives (h : Dialogue program config log s) (hh : request.Honest log)
    (hd : s.Drives request before pass) : pass = Pass.start config program before.answers := by
  cases hd with
  | evaluated => rw [h.coherent.program_eq, h.coherent.config_eq]; rfl
  | resumed hr _ hp ht => exact h.coherent.resume_eq_start h.orderly hh _ hr hp ht

theorem results_of_event (h : Dialogue program config log s) (hh : request.Honest log)
    {event : Event} (he : event ∈ (s.handle request).events) {v : Value} {trace : Trace}
    (hv : event.result? = some (v, trace)) :
    (Pass.start config program (s.handle request).session.answers).Results v trace := by
  rcases h.history.drives_or_responds request with ⟨before, pass, hd⟩ | ⟨hr, _⟩
  · have hpass := h.eq_start_of_drives hh hd
    have hs := Session.settle_settled before pass
    rw [hd.handle_eq] at he ⊢
    rw [Reply.map, hs.answers_eq, ← hpass]
    generalize before.settle pass = reply at he hs
    cases hs with
    | complete hresults =>
      obtain ⟨_, _, rfl⟩ := List.mem_map.mp he
      cases hv
      exact hresults
    | parked ho hl =>
      simp only [Reply.map, List.mem_append, List.mem_map] at he
      rcases he with ⟨_, _, rfl⟩ | ⟨_, _, rfl⟩ <;> contradiction
    | undefined ho =>
      obtain ⟨_, _, rfl⟩ := List.mem_map.mp he
      contradiction
    | _ => simp [Reply.map, Session.fail] at he
  · generalize s.handle request = reply at hr he
    cases hr with
    | validated | invalidated =>
      obtain ⟨_, _, rfl⟩ := List.mem_map.mp he
      contradiction
    | _ => simp [Session.reply] at he

theorem kind_of_answered (h : Dialogue program config log s) (hc : program.Consistent)
    {text : String} {answer : Answer} (ha : s.answers.get? text = some answer) :
    ∃ q, program.question? text = some q ∧ answer.kind = q.kind := by
  obtain ⟨q, hq, rfl, hkind⟩ := h.answered_mention ha
  exact ⟨q, hc.question?_eq hq, hkind.symm⟩

theorem kind_of_parked (h : Dialogue program config log s) (hc : program.Consistent) {p : Parked}
    (hp : s.parked = some p) : ∃ q, p.pass.outcome = .parked q ∧
      program.question? p.continuation.question = some q ∧ p.continuation.kind = q.kind := by
  obtain ⟨question, ho, hcont, _, hmem⟩ := h.parked_on hp
  rw [hcont]
  exact ⟨question, ho, hc.question?_eq hmem, rfl⟩

end Dialogue

namespace Session

variable {q : Question} {v : Value}

/-- The value is turned down for its kind, and nothing changes. -/
def Declines (s : Session) (q : Question) (v : Value) : Prop :=
  s.handle (.provide q.text v) =
    s.reply (.error (.inputKindMismatch q.text q.kind v.category)) []

/-- The value is kept as the answer. If that sets a pass going, it may still fail. -/
def Accepts (s : Session) (q : Question) (v : Value) : Prop :=
  ∃ answer : Answer, answer.value = v ∧
    (s.handle (.provide q.text v)).session.answers = s.answers.insert q.text answer ∧
    ∀ e, (s.handle (.provide q.text v)).result = .error e → e.refuses = false

theorem answerAhead_of_mismatch (hq : s.program.question? q.text = some q)
    (ha : s.answers.get? q.text = none) (hk : v.kind? ≠ some q.kind) :
    s.answerAhead q.text v =
      s.reply (.error (.inputKindMismatch q.text q.kind v.category)) [] := by
  simp [answerAhead, withQuestion, hq, Answers.contains, ha, checkKind_of_mismatch hk]

theorem answerAhead_of_answer {answer : Answer} (hq : s.program.question? q.text = some q)
    (ha : s.answers.get? q.text = none) (hk : answer.kind = q.kind) :
    s.answerAhead q.text answer.value =
      ⟨{ s with answers := s.answers.insert q.text answer }, .ok s.status, []⟩ := by
  simp [answerAhead, withQuestion, hq, Answers.contains, ha, ← hk, checkKind_of_answer]

end Session

namespace Dialogue

variable {q : Question} {v : Value}

theorem accepts_of_parked (h : Dialogue program config log s) {p : Parked}
    (hp : s.parked = some p) (ht : p.continuation.question = q.text)
    (hkind : p.continuation.kind = q.kind) :
    (v.kind? = some q.kind → s.Accepts q v) ∧ (v.kind? ≠ some q.kind → s.Declines q v) := by
  have hpending : s.pending = some p.continuation := by rw [Session.pending, hp]; rfl
  refine ⟨fun hk => ?_, fun hk => ?_⟩
  · obtain ⟨answer, rfl, hak⟩ := Value.of_kind?_eq_some hk
    have hr : (Request.provide q.text answer.value).resumption? s =
        some (p.continuation, answer.value) := by simp [Request.resumption?, hpending, ht]
    have hg := Disciplined.generation_eq h.orderly hpending
    have hd := Session.Drives.resumed hr hg hp rfl rfl (hak.trans hkind.symm)
    have hs := Session.settle_settled (s.answered p.continuation.question answer)
      (p.pass.resume s.config answer (s.answers.insert p.continuation.question answer))
    refine ⟨answer, rfl, ?_, fun e he => ?_⟩
    · rw [hd.handle_eq, Reply.map, hs.answers_eq, ht]
      rfl
    · rw [hd.handle_eq] at he
      exact hs.refuses (hd.reached h.history.underway) (map_eq_error he)
  · have hmismatch := (Session.resume_of_pending h.orderly hpending v).1 (hkind ▸ hk)
    simp only [Session.Declines, Session.handle, Session.provide, hpending, ht, if_true,
      hmismatch, hkind]
    rfl

theorem accepts_of_ahead (hq : s.program.question? q.text = some q)
    (ha : s.answers.get? q.text = none)
    (hp : ∀ p, s.parked = some p → p.continuation.question ≠ q.text) :
    (v.kind? = some q.kind → s.Accepts q v) ∧ (v.kind? ≠ some q.kind → s.Declines q v) := by
  have hprovide : s.provide q.text v = s.answerAhead q.text v := by
    cases hparked : s.parked with
    | none => simp [Session.provide, Session.pending, hparked]
    | some p => simp [Session.provide, Session.pending, hparked, hp p hparked]
  refine ⟨fun hk => ?_, fun hk => ?_⟩
  · obtain ⟨answer, rfl, hak⟩ := Value.of_kind?_eq_some hk
    rw [Session.answerAhead_of_answer hq ha hak] at hprovide
    refine ⟨answer, rfl, ?_, ?_⟩
    · simp [Session.handle, hprovide, Reply.map]
    · simp [Session.handle, hprovide, Reply.map, Except.map]
  · rw [Session.Declines, Session.handle, hprovide, Session.answerAhead_of_mismatch hq ha hk]
    rfl

/-- A value is accepted for an open question for its kind only, whether a pass is parked on the
question or not. -/
theorem accepts_of_kind (h : Dialogue program config log s) (hc : program.Consistent)
    (hq : program.question? q.text = some q) (ha : s.answers.get? q.text = none) :
    (v.kind? = some q.kind → s.Accepts q v) ∧ (v.kind? ≠ some q.kind → s.Declines q v) := by
  by_cases hp : ∃ p, s.parked = some p ∧ p.continuation.question = q.text
  · obtain ⟨p, hp, ht⟩ := hp
    obtain ⟨declared, _, hdeclared, hkind⟩ := h.kind_of_parked hc hp
    rw [ht, hq, Option.some.injEq] at hdeclared
    exact h.accepts_of_parked hp ht (hdeclared ▸ hkind)
  · rw [← h.coherent.program_eq] at hq
    exact accepts_of_ahead hq ha fun p hparked ht => hp ⟨p, hparked, ht⟩

end Dialogue

/-- A program that has all its questions from one builder says the same of a question wherever it
mentions it. In a dialogue about it, an answer that is kept is of the kind that the program declares
for its question, and so is what the parked pass awaits, and what a derivation that is delivered
rests on. An open question is answered with just the values of that kind, ahead of time or not. -/
theorem Builder.Made.kinds_sound {b : Builder} {given : List Question} {program : Program}
    (hb : Builder.Made b given) (hp : Stmt.mentionsAll program.body ⊆ given) (config : Config) :
    (∀ q ∈ Stmt.mentionsAll program.body, ∀ q' ∈ Stmt.mentionsAll program.body,
      q.text = q'.text → q.kind = q'.kind ∧ q.prompt = q'.prompt) ∧
    ∀ log s, Dialogue program config log s →
      (∀ text answer, s.answers.get? text = some answer →
        ∃ q, program.question? text = some q ∧ answer.kind = q.kind) ∧
      (∀ p, s.parked = some p → ∃ q, p.pass.outcome = .parked q ∧
        program.question? p.continuation.question = some q ∧ p.continuation.kind = q.kind) ∧
      (∀ request : Request, request.Honest log → ∀ event ∈ (s.handle request).events,
        ∀ v trace, event.result? = some (v, trace) → ∀ node ∈ trace.nodes, ∀ text value,
          node.rule = .input text value → ∃ q answer, program.question? text = some q ∧
            value = Answer.summary answer ∧ answer.kind = q.kind) ∧
      ∀ q, program.question? q.text = some q → s.answers.get? q.text = none → ∀ v : Value,
        (v.kind? = some q.kind → s.Accepts q v) ∧ (v.kind? ≠ some q.kind → s.Declines q v) := by
  have hc := hb.consistent hp
  refine ⟨?_, fun log s h => ⟨fun _ _ ha => h.kind_of_answered hc ha,
    fun _ hparked => h.kind_of_parked hc hparked, ?_,
    fun _ hq ha _ => h.accepts_of_kind hc hq ha⟩⟩
  · intro q hq q' hq' ht
    rw [hc q hq q' hq' ht]
    exact ⟨rfl, rfl⟩
  · intro request hh event he v trace hv node hn text value hr
    obtain ⟨answer, ha, hvalue⟩ := Pass.answer_of_input (h.results_of_event hh he hv) hn hr
    have hafter : Dialogue program config _ (s.handle request).session := .exchange request h hh
    obtain ⟨q, hq, hkind⟩ := hafter.kind_of_answered hc ha
    exact ⟨q, answer, hq, hvalue, hkind⟩

theorem Builder.Made.kinds_sound_invoice :
    let config : Config := ⟨50, true, false⟩
    let ordered : Question := ⟨"ordered", .number, ""⟩
    let told := ((Session.new Pass.invoice config).handle (.onFinish "f")).session
    let asked := (told.handle .evaluate).session
    let s := (asked.handle (.provide "price" (.number 5))).session
    (∃ b given, Builder.Made b given ∧ given.length = 3 ∧
      Stmt.mentionsAll Pass.invoice.body ⊆ given) ∧
      (∃ log, Dialogue Pass.invoice config log s) ∧
      (∃ q, Pass.invoice.question? "price" = some q ∧ (Answer.number 5).kind = q.kind) ∧
      (∃ p q, s.parked = some p ∧ p.pass.outcome = .parked q ∧ p.continuation.kind = q.kind) ∧
      s.Accepts ordered (.number 2) ∧ s.Declines ordered (.boolean true) ∧
      ∃ event ∈ (s.handle (.provide "ordered" (.number 2))).events, ∃ v trace,
        event.result? = some (v, trace) ∧ ∀ node ∈ trace.nodes, ∀ text value,
          node.rule = .input text value → ∃ q answer, Pass.invoice.question? text = some q ∧
            value = Answer.summary answer ∧ answer.kind = q.kind := by
  intro config ordered told asked s
  let price : Question := ⟨"price", .number, ""⟩
  have h₁ : Builder.empty.input "ordered" .number "" =
      .ok (.input ordered, ⟨0, [ordered]⟩) := rfl
  have h₂ : (Builder.mk 0 [ordered]).input "ordered" .number "More?" =
      .ok (.input ordered, ⟨0, [ordered]⟩) := rfl
  have h₃ : (Builder.mk 0 [ordered]).input "price" .number "" =
      .ok (.input price, ⟨0, [price, ordered]⟩) := rfl
  have hb : Builder.Made ⟨0, [price, ordered]⟩ [price, ordered, ordered] :=
    .input (.input (.input .empty h₁) h₂) h₃
  have hp : Stmt.mentionsAll Pass.invoice.body ⊆ [price, ordered, ordered] := by decide
  obtain ⟨_, hdialogue⟩ := Builder.Made.kinds_sound hb hp config
  have h : Dialogue Pass.invoice config _ s :=
    .exchange _ (.exchange .evaluate (.exchange (.onFinish "f") .new trivial) trivial) trivial
  obtain ⟨hanswers, hparked, htraces, hprovide⟩ := hdialogue _ s h
  obtain ⟨p, hparkedOn⟩ := h.orderly.waiting "ordered" (by decide +kernel)
  obtain ⟨q, ho, _, hkind⟩ := hparked p hparkedOn
  obtain ⟨haccepts, _⟩ := hprovide ordered (by decide) (by decide +kernel) (.number 2)
  obtain ⟨_, hdeclines⟩ := hprovide ordered (by decide) (by decide +kernel) (.boolean true)
  have hsome : ((s.handle (.provide "ordered" (.number 2))).events.findSome?
      Event.result?).isSome = true := by decide +kernel
  obtain ⟨⟨v, trace⟩, hresult⟩ := Option.isSome_iff_exists.mp hsome
  obtain ⟨event, he, hv⟩ := List.exists_of_findSome?_eq_some hresult
  exact ⟨⟨_, _, hb, rfl, hp⟩, ⟨_, h⟩, hanswers "price" _ (by decide +kernel),
    ⟨p, q, hparkedOn, ho, hkind⟩, haccepts rfl, hdeclines (by decide), event, he, v, trace, hv,
    htraces (.provide "ordered" (.number 2)) trivial event he v trace hv⟩

end Inquiry
