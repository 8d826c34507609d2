import Inquiry.Proofs.Session.Coherence
import Inquiry.Proofs.Session.Driving
set_option autoImplicit false

namespace Inquiry

open Dialogue

/-- Nothing is under way any more and nobody was told. What was settled before is still there. -/
structure Reply.Abandons {α : Type} (s : Session) (reply : Reply α) : Prop where
  parked : reply.session.parked = none
  status : reply.session.status = .idle
  settled : reply.session.settled = s.settled
  events : reply.events = []

variable {program : Program} {config : Config} {log : List Exchange} {s before : Session}
  {request : Request} {pass : Pass}

theorem Settled.abandons {reply : Reply Status} {e : EvalError} (h : Settled s pass reply)
    (hp : s.parked = none) (he : reply.result = .error e) : reply.Abandons s := by
  cases h with
  | failed | unheard | malformed => exact ⟨hp, rfl, rfl, rfl⟩
  | _ => contradiction

/-- The answers there are while a pass is driven: those before, and the one it goes on with. -/
def Session.Gains (s : Session) (request : Request) (after : Session) : Prop :=
  match request.resumption? s with
  | none => after.answers = s.answers
  | some (c, v) => s.pending = some c ∧ s.answers.get? c.question = none ∧
    ∃ answer : Answer, answer.value = v ∧ answer.kind = c.kind ∧
      after.answers = s.answers.insert c.question answer

namespace Dialogue

theorem gains_of_drives (h : Dialogue program config log s) (hh : request.Honest log)
    (hd : s.Drives request before pass) : s.Gains request before := by
  cases hd with
  | evaluated => exact rfl
  | @resumed request c v parked answer hr hg hp ht hv hk =>
    obtain ⟨question, ho, hcont, _⟩ := h.orderly.parked parked hp
    have hc : c = parked.continuation := Orderly.eq_continuation h.orderly hh hr hp ht
    have hnone : s.answers.get? question.text = none :=
      Pass.get?_of_start_parked (h.coherent.parked parked hp ▸ ho)
    simp only [Session.Gains, hr]
    refine ⟨by rw [hc, Session.pending, hp]; rfl, ?_, answer, hv, hk, rfl⟩
    rw [hc, hcont]
    exact hnone

/-- An error either refuses the request, which changes nothing, so that the parked pass can still
be gone on with; or it ends a pass. Then the session is idle, and its answers are those before and
the one with which the pass was gone on with, if it was. -/
theorem error_keeps_or_abandons (h : Dialogue program config log s) (hh : request.Honest log)
    {e : EvalError} (he : (s.handle request).result = .error e) :
    (e.refuses = true → (s.handle request).session = s ∧ (s.handle request).events = [] ∧
      ∀ c v, s.pending = some c → v.kind? = some c.kind →
        (s.handle request).session.Continues c v) ∧
    (e.refuses = false → (s.handle request).Abandons s ∧
      s.Gains request (s.handle request).session) := by
  rcases h.history.drives_or_responds request with ⟨before, pass, hd⟩ | ⟨hr, _⟩
  · have hs := Session.settle_settled before pass
    rw [hd.handle_eq] at he ⊢
    have he := map_eq_error he
    have hrefuses := hs.refuses (hd.reached h.history.underway) he
    refine ⟨by simp [hrefuses], fun _ => ⟨?_, ?_⟩⟩
    · have ha := hs.abandons hd.parked_eq he
      exact ⟨ha.parked, ha.status, ha.settled.trans hd.settled_eq, ha.events⟩
    · have hg := h.gains_of_drives hh hd
      simpa only [Session.Gains, Reply.map, hs.answers_eq] using hg
  · generalize s.handle request = reply at he hr ⊢
    cases hr with
    | refused hrefuses =>
      cases he
      refine ⟨fun _ => ⟨rfl, rfl, ?_⟩, by simp [hrefuses]⟩
      exact fun c v hp hk => (Session.resume_of_pending h.orderly hp v).2 hk
    | _ => contradiction

theorem error_keeps_or_abandons_invoice :
    let config : Config := ⟨50, true, false⟩
    let c : Continuation := ⟨"ordered", .number, 1, 1⟩
    let most : Int64 := 9223372036854775807
    let s := ((Session.new Pass.invoice config).handle .evaluate).session
    let refused := s.handle (.resume c (.boolean true))
    let failed := s.handle (.provide "ordered" (.number most))
    (∃ log, Dialogue Pass.invoice config log s ∧ (Request.resume c (.boolean true)).Honest log) ∧
      refused.result = .error (.inputKindMismatch "ordered" .number .boolean) ∧
      refused.session = s ∧ refused.events = [] ∧
      refused.session.Continues c (.number most) ∧
      failed.result = .error (.overflow "+") ∧ failed.Abandons s ∧
      s.answers.get? "ordered" = none ∧
      failed.session.answers = s.answers.insert "ordered" (.number most) := by
  intro config c most s refused failed
  have h : Dialogue Pass.invoice config _ s := .exchange .evaluate .new trivial
  have hmine : (Request.resume c (.boolean true)).Honest
      [⟨.evaluate, (Session.new Pass.invoice config).handle .evaluate⟩] := by decide +kernel
  have hfree : (Request.provide "ordered" (.number most)).Honest
      [⟨.evaluate, (Session.new Pass.invoice config).handle .evaluate⟩] := trivial
  have hrefused : refused.result = .error (.inputKindMismatch "ordered" .number .boolean) := by
    decide +kernel
  have hfailed : failed.result = .error (.overflow "+") := by decide +kernel
  have hpending : s.pending = some c := by decide +kernel
  obtain ⟨hsame, hquiet, hopen⟩ := (Dialogue.error_keeps_or_abandons h hmine hrefused).1 rfl
  obtain ⟨habandons, hanswers⟩ := (Dialogue.error_keeps_or_abandons h hfree hfailed).2 rfl
  have hresumes : (Request.provide "ordered" (.number most)).resumption? s =
      some (c, .number most) := by decide +kernel
  simp only [Session.Gains, hresumes] at hanswers
  obtain ⟨_, hnone, answer, hvalue, _, hinsert⟩ := hanswers
  have hanswer : answer = .number most := by
    cases answer <;> simp_all [Answer.value]
  exact ⟨⟨_, h, hmine⟩, hrefused, hsame, hquiet, hopen c (.number most) hpending rfl, hfailed,
    habandons, hnone, hanswer ▸ hinsert⟩

end Dialogue

end Inquiry
