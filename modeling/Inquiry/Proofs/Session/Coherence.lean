import Inquiry.Proofs.Session.Order
set_option autoImplicit false

namespace Inquiry

open Dialogue

variable {program : Program} {config : Config} {log : List Exchange} {s s' : Session}

/-- A new pass does not notice an answer to a question it does not come to. -/
theorem Pass.start_insert {answers : Answers} {question : String} {answer : Answer}
    (ha : answers.get? question = none)
    (hq : ∀ q, (start config program answers).outcome = .parked q → q.text ≠ question) :
    start config program (answers.insert question answer) = start config program answers := by
  rw [start_extend (Answers.extendsTo_insert ha)]
  cases ho : (start config program answers).outcome with
  | parked q =>
    apply proceed_of_none ho
    rw [Answers.get?_insert, if_neg (hq q ho)]
    exact get?_of_start_parked ho
  | _ => exact proceed_of_not_parked (by simp [ho])

/-- What every exchange of a dialogue keeps about the last pass. -/
structure Coherent (program : Program) (config : Config) (log : List Exchange) (s : Session) :
    Prop where
  program_eq : s.program = program
  config_eq : s.config = config
  parked : ∀ p, s.parked = some p → p.pass = Pass.start config program s.answers
  complete : ∀ v, s.status = .complete v → ∃ trace,
    (Pass.start config program s.answers).Results v trace ∧
      ∀ result, lastResult? log = some result → result = (v, trace)
  undefined : s.status = .undefined →
    (Pass.start config program s.answers).outcome = .finished .undefined
  finisher : s.finisher = none → lastResult? log = none

namespace Coherent

theorem lastResult?_cons {e : Exchange} (he : ∀ event ∈ e.reply.events, event.result? = none) :
    lastResult? (e :: log) = lastResult? log := by
  have h : e.result? = none := List.findSome?_eq_none_iff.mpr he
  simp [lastResult?, h]

theorem finisher_cons {e : Exchange} (h : Coherent program config log s)
    (he : ∀ event ∈ e.reply.events, event.result? = none)
    (hf : s'.finisher = none → s.finisher = none) (hn : s'.finisher = none) :
    lastResult? (e :: log) = none := by
  rw [lastResult?_cons he]
  exact h.finisher (hf hn)

theorem unchanged {e : Exchange} (h : Coherent program config log s) (ho : Orderly log s)
    (he : ∀ event ∈ e.reply.events, event.result? = none) (hprog : s'.program = s.program)
    (hconf : s'.config = s.config) (hp : s'.parked = s.parked) (hst : s'.status = s.status)
    (ha : s.status ≠ .idle →
      Pass.start config program s'.answers = Pass.start config program s.answers)
    (hf : s'.finisher = none → s.finisher = none) :
    Coherent program config (e :: log) s' := by
  have hl : lastResult? (e :: log) = lastResult? log := lastResult?_cons he
  refine ⟨hprog.trans h.program_eq, hconf.trans h.config_eq, ?_, ?_, ?_, h.finisher_cons he hf⟩
  · intro p hq
    rw [hp] at hq
    obtain ⟨question, _, _, hwait⟩ := ho.parked p hq
    rw [ha (by simp [hwait])]
    exact h.parked p hq
  · intro v hv
    rw [hst] at hv
    rw [ha (by simp [hv]), hl]
    exact h.complete v hv
  · intro hu
    rw [hst] at hu
    rw [ha (by simp [hu])]
    exact h.undefined hu

theorem idle {e : Exchange} (h : Coherent program config log s)
    (he : ∀ event ∈ e.reply.events, event.result? = none) (hprog : s'.program = s.program)
    (hconf : s'.config = s.config) (hp : s'.parked = none) (hst : s'.status = .idle)
    (hf : s'.finisher = s.finisher) : Coherent program config (e :: log) s' := by
  have hfin := h.finisher_cons he fun hn => hf ▸ hn
  refine ⟨hprog.trans h.program_eq, hconf.trans h.config_eq, ?_, ?_, ?_, hfin⟩
  · simp [hp]
  · simp [hst]
  · simp [hst]

/-- A pass over the present answers was started, or gone on with from fewer. -/
theorem settled {pass : Pass} {reply : Reply Status} (h : Coherent program config log s)
    (hs : Settled s' pass reply) (hprog : s'.program = s.program) (hconf : s'.config = s.config)
    (hf : s'.finisher = s.finisher) (hp : s'.parked = none)
    (hpass : pass = Pass.start config program s'.answers) (request : Request) :
    Coherent program config (⟨request, reply.map some⟩ :: log) reply.session := by
  cases hs with
  | failed ho => exact idle h (by simp [Reply.map, Session.fail]) hprog hconf hp rfl hf
  | unheard ho hl hr => exact idle h (by simp [Reply.map, Session.fail]) hprog hconf hp rfl hf
  | malformed ho hd ht => exact idle h (by simp [Reply.map, Session.fail]) hprog hconf hp rfl hf
  | parked ho hl =>
    refine ⟨hprog.trans h.program_eq, hconf.trans h.config_eq, ?_, ?_, ?_,
      h.finisher_cons ?_ fun hn => hf ▸ hn⟩
    · intro p hq
      simp only [Option.some.injEq] at hq
      subst hq
      exact hpass
    · simp
    · simp
    · intro event he
      simp only [Reply.map, List.mem_append, List.mem_map] at he
      rcases he with ⟨_, _, rfl⟩ | ⟨_, _, rfl⟩ <;> rfl
  | undefined ho =>
    refine ⟨hprog.trans h.program_eq, hconf.trans h.config_eq, ?_, ?_, ?_,
      h.finisher_cons ?_ fun hn => hf ▸ hn⟩
    · simp [hp]
    · simp
    · intro _
      rw [← hpass]
      exact ho
    · intro event he
      simp only [Reply.map, List.mem_map] at he
      obtain ⟨_, _, rfl⟩ := he
      rfl
  | @complete v trace hr =>
    refine ⟨hprog.trans h.program_eq, hconf.trans h.config_eq, ?_, ?_, ?_, ?_⟩
    · simp [hp]
    · intro w hw
      simp only [Status.complete.injEq] at hw
      subst hw
      refine ⟨trace, hpass ▸ hr, ?_⟩
      intro result hl
      -- If nobody is told of results, none was delivered before.
      cases hfin : s'.finisher with
      | none =>
        have hn := h.finisher (hf ▸ hfin)
        rw [lastResult?_cons (by simp [Reply.map, hfin]), hn] at hl
        contradiction
      | some name =>
        simp only [lastResult?, Exchange.result?, Reply.map, hfin, Option.toList_some,
          List.map_cons, List.map_nil, List.findSome?_cons, Event.result?,
          Option.some.injEq] at hl
        exact hl.symm
    · simp
    · intro hn
      simp only at hn
      have hn' := h.finisher (hf ▸ hn)
      rw [lastResult?_cons]
      · exact hn'
      · simp [Reply.map, hn]

theorem parked_ne (h : Coherent program config log s) (ho : Orderly log s) {question : String}
    {v : Value} (hn : (Request.provide question v).resumption? s = none)
    (hi : s.status ≠ .idle) (q : Question)
    (hq : (Pass.start config program s.answers).outcome = .parked q) : q.text ≠ question := by
  cases hs : s.status with
  | idle => exact absurd hs hi
  | waiting text =>
    obtain ⟨p, hp⟩ := ho.waiting text hs
    obtain ⟨asked, hout, hcont, _⟩ := ho.parked p hp
    have hne := Orderly.ne_of_ahead hn hp
    rw [h.parked p hp, hq, Outcome.parked.injEq] at hout
    rw [hcont, ← hout] at hne
    exact hne
  | complete v =>
    obtain ⟨_, ⟨d, hd, _⟩, _⟩ := h.complete v hs
    rw [hq] at hd
    contradiction
  | undefined =>
    rw [h.undefined hs] at hq
    contradiction

/-- A parked pass that goes on is as a new pass over its answer and those before. -/
theorem resume_eq_start (h : Coherent program config log s) (ho : Orderly log s)
    {request : Request} (hh : request.Honest log) {c : Continuation} {v : Value} {parked : Parked}
    (answer : Answer) (hr : request.resumption? s = some (c, v)) (hp : s.parked = some parked)
    (ht : parked.continuation.ticket = c.ticket) :
    parked.pass.resume s.config answer (s.answers.insert c.question answer) =
      Pass.start config program (s.answers.insert c.question answer) := by
  obtain ⟨question, hout, hcont, _⟩ := ho.parked parked hp
  have hc : c = parked.continuation := Orderly.eq_continuation ho hh hr hp ht
  have hq : c.question = question.text := by rw [hc, hcont]; rfl
  have hpass := h.parked parked hp
  have hnone : s.answers.get? question.text = none :=
    Pass.get?_of_start_parked (hpass ▸ hout)
  rw [h.config_eq, hpass, hq]
  rw [hpass] at hout
  have hsome : (s.answers.insert question.text answer).get? question.text = some answer := by
    simp [Answers.get?_insert]
  rw [← Pass.proceed_of_some hout hsome, ← Pass.start_extend (Answers.extendsTo_insert hnone)]

theorem exchange (h : Coherent program config log s) (ho : Orderly log s) {request : Request}
    (hh : request.Honest log) :
    Coherent program config (⟨request, s.handle request⟩ :: log) (s.handle request).session := by
  have hr := Session.handle_reaction s request
  generalize s.handle request = reply at hr
  cases hr with
  | evaluated hs =>
    exact settled h hs rfl rfl rfl rfl (by rw [h.program_eq, h.config_eq]; rfl) _
  | resumed hr hg hp ht hk hs =>
    exact settled h hs rfl rfl rfl rfl (h.resume_eq_start ho hh _ hr hp ht) _
  | @ahead question v q answer hn hq ha hk =>
    refine unchanged h ho (by simp) rfl rfl rfl rfl ?_ id
    intro hi
    exact Pass.start_insert (by simpa [Answers.contains] using ha) (h.parked_ne ho hn hi)
  | invalidated hq => exact idle h (by simp [Event.result?]) rfl rfl rfl rfl rfl
  | validated hq =>
    exact unchanged h ho (by simp [Event.result?]) rfl rfl rfl rfl (fun _ => rfl) id
  | onFinish =>
    exact unchanged h ho (by simp) rfl rfl rfl rfl (fun _ => rfl) (by simp [Session.onFinish])
  | _ => exact unchanged h ho (by simp [Session.reply]) rfl rfl rfl rfl (fun _ => rfl) id

end Coherent

theorem Dialogue.coherent (h : Dialogue program config log s) : Coherent program config log s := by
  induction h with
  | new =>
    exact ⟨rfl, rfl, by simp [Session.new], by simp [Session.new], by simp [Session.new],
      fun _ => rfl⟩
  | exchange request hd hh ih => exact ih.exchange hd.orderly hh

/-- The status of a session, its parked pass and the result it delivered last are those of a new
pass over the answers there are now. -/
theorem Dialogue.status_as_fresh (h : Dialogue program config log s) :
    let fresh := Pass.start config program s.answers
    match s.status with
    | .idle => True
    | .waiting q => ∃ question parked, fresh.outcome = .parked question ∧ question.text = q ∧
        s.parked = some parked ∧ parked.pass = fresh
    | .complete v => ∃ trace, fresh.Results v trace ∧
        ∀ result, lastResult? log = some result → result = (v, trace)
    | .undefined => fresh.outcome = .finished .undefined := by
  intro fresh
  have hc := h.coherent
  cases hs : s.status with
  | idle => trivial
  | waiting q =>
    obtain ⟨parked, hp⟩ := h.orderly.waiting q hs
    obtain ⟨question, ho, _, hw⟩ := h.orderly.parked parked hp
    have hpass := hc.parked parked hp
    rw [hs, Status.waiting.injEq] at hw
    rw [hpass] at ho
    exact ⟨question, parked, ho, hw.symm, hp, hpass⟩
  | complete v => exact hc.complete v hs
  | undefined => exact hc.undefined hs

theorem Dialogue.status_as_fresh_invoice :
    let config : Config := ⟨50, true, false⟩
    let v : Value := .record (.cons "total" (.number 15) .nil)
    ∃ log s, Dialogue Pass.invoice config log s ∧ s.status = .complete v ∧
      (lastResult? log).map Prod.fst = some v ∧
      ∃ trace, (Pass.start config Pass.invoice s.answers).Results v trace ∧
        ∀ result, lastResult? log = some result → result = (v, trace) := by
  intro config v
  have hfresh {log : List Exchange} {s : Session} (h : Dialogue Pass.invoice config log s)
      (hs : s.status = .complete v) : ∃ trace,
      (Pass.start config Pass.invoice s.answers).Results v trace ∧
        ∀ result, lastResult? log = some result → result = (v, trace) := by
    have hf := Dialogue.status_as_fresh h
    simpa only [hs] using hf
  have h₁ : Dialogue Pass.invoice config _ _ := .exchange (.onFinish "f") .new trivial
  have h₂ := Dialogue.exchange .evaluate h₁ trivial
  have h₃ := Dialogue.exchange (.provide "price" (.number 5)) h₂ trivial
  have h₄ := Dialogue.exchange (.resume ⟨"ordered", .number, 1, 1⟩ (.number 2)) h₃
    (by decide +kernel)
  exact ⟨_, _, h₄, by decide +kernel, by decide +kernel, hfresh h₄ (by decide +kernel)⟩

end Inquiry
