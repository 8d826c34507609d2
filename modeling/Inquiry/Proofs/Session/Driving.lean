import Inquiry.Proofs.Session.Continuations
import Inquiry.Proofs.Session.Delivery
set_option autoImplicit false

/-!
The two ways in which a session reacts. Either a request sets a pass going, a new one or the parked
one, and the reply says how that pass stopped; or the session replies without any pass.
-/

namespace Inquiry

open Dialogue

/-- The errors that refuse a request as it stands. All others come from a pass. -/
def EvalError.refuses : EvalError → Bool
  | .staleContinuation _ | .continuationConsumed _ | .inputKindMismatch _ _ _
  | .unknownQuestion _ | .alreadyAnswered _ => true
  | _ => false

namespace Session

/-- The pass that a request sets going, as it is when it stops, and the session meanwhile. -/
inductive Drives (s : Session) : Request → Session → Pass → Prop where
  | evaluated : Drives s .evaluate s.discardParked (Pass.start s.config s.program s.answers)
  | resumed {request : Request} {c : Continuation} {v : Value} {parked : Parked} {answer : Answer}
      (hr : request.resumption? s = some (c, v)) (hg : c.generation = s.generation)
      (hp : s.parked = some parked) (ht : parked.continuation.ticket = c.ticket)
      (hv : answer.value = v) (hk : answer.kind = c.kind) :
      Drives s request (s.answered c.question answer)
        (parked.pass.resume s.config answer (s.answers.insert c.question answer))

inductive Responds (s : Session) : Request → Reply (Option Status) → Prop where
  | refused {request : Request} {e : EvalError} (he : e.refuses = true) :
      Responds s request (s.reply (.error e) [])
  | ahead {question : String} {answer : Answer} (ha : s.answers.get? question = none) :
      Responds s (.provide question answer.value)
        ⟨{ s with answers := s.answers.insert question answer }, .ok (some s.status), []⟩
  | validated {question : String} :
      Responds s (.validate question)
        ⟨s, .ok none, (s.listener? question).toList.map fun name =>
          .validate name question s.globals⟩
  | invalidated {question : String} :
      Responds s (.invalidate question)
        ⟨{ s.discardParked with
            answers := s.answers.erase question, settled := none, status := .idle },
          .ok none, (s.listener? question).toList.map fun name =>
            .invalidate name question Globals.empty⟩
  | registered {question listener : String} :
      Responds s (.register question listener)
        ⟨{ s with listeners := (question, listener) ::
            s.listeners.filter fun entry => entry.1 != question }, .ok none, []⟩
  | onFinish {listener : String} :
      Responds s (.onFinish listener) ⟨s.onFinish listener, .ok none, []⟩
  | onUndefined {listener : String} :
      Responds s (.onUndefined listener) ⟨s.onUndefined listener, .ok none, []⟩

theorem answer_of_checkKind {question : String} {expected : Kind} {v : Value} {answer : Answer}
    (h : checkKind question expected v = .ok answer) :
    answer.value = v ∧ answer.kind = expected := by
  cases v with
  | number | boolean =>
    simp only [checkKind, Value.answer?] at h
    split at h
    · rename_i hk
      cases h
      exact ⟨rfl, hk⟩
    · contradiction
  | _ => contradiction

end Session

namespace Session

variable {s : Session} {request : Request}

/-- A request that is about the parked pass resumes it, whichever way it says so. -/
theorem handle_of_resumption {c : Continuation} {v : Value}
    (hr : request.resumption? s = some (c, v)) : s.handle request = (s.resume c v).map some := by
  cases request with
  | resume other v' =>
    cases hr
    rfl
  | provide question v' =>
    simp only [Request.resumption?] at hr
    split at hr
    · rename_i c' hpending
      split at hr
      · rename_i hq
        cases hr
        simp only [handle, provide, hpending, hq, if_true]
      · contradiction
    · contradiction
  | _ => contradiction

end Session

theorem Pass.Reached.refuses {captureTrace : Bool} {program : Program} {pass : Pass}
    {e : EvalError} (h : pass.Reached captureTrace program) (ho : pass.outcome = .failed e) :
    e.refuses = false := by
  rcases h.failed e ho with he | rfl | rfl
  · cases e <;> first | rfl | contradiction
  · rfl
  · rfl

theorem Settled.refuses {captureTrace : Bool} {program : Program} {s : Session} {pass : Pass}
    {reply : Reply Status} {e : EvalError} (h : Settled s pass reply)
    (hr : pass.Reached captureTrace program) (he : reply.result = .error e) :
    e.refuses = false := by
  cases h with
  | failed ho =>
    cases he
    exact hr.refuses ho
  | unheard | malformed =>
    cases he
    rfl
  | _ => contradiction

theorem Settled.pass_eq {s : Session} {pass : Pass} {reply : Reply Status} {p : Parked}
    (h : Settled s pass reply) (hs : s.parked = none) (hp : reply.session.parked = some p) :
    p.pass = pass := by
  cases h with
  | parked =>
    cases hp
    rfl
  | _ =>
    cases hs.symm.trans hp

theorem Session.Responds.refuses {s : Session} {request : Request}
    {reply : Reply (Option Status)} {e : EvalError} (h : s.Responds request reply)
    (he : reply.result = .error e) : e.refuses = true := by
  cases h with
  | refused hrefuses =>
    cases he
    exact hrefuses
  | _ => contradiction

variable {program : Program} {config : Config} {log : List Exchange} {s before : Session}
  {request : Request} {pass : Pass}

namespace Session.Drives

theorem parked_eq (h : s.Drives request before pass) : before.parked = none := by
  cases h <;> rfl

theorem settled_eq (h : s.Drives request before pass) : before.settled = s.settled := by
  cases h <;> rfl

theorem listener?_eq (h : s.Drives request before pass) (question : String) :
    before.listener? question = s.listener? question := by
  cases h <;> rfl

theorem finisher_eq (h : s.Drives request before pass) : before.finisher = s.finisher := by
  cases h <;> rfl

theorem undefinedListener_eq (h : s.Drives request before pass) :
    before.undefinedListener = s.undefinedListener := by
  cases h <;> rfl

theorem handle_eq (h : s.Drives request before pass) :
    s.handle request = (before.settle pass).map some := by
  cases h with
  | evaluated => rfl
  | resumed hr hg hp ht hv hk =>
    rw [handle_of_resumption hr, ← hv, resume_of_answer hg hp ht hk]

theorem reached (h : s.Drives request before pass) (hu : s.Underway program config) :
    pass.Reached config.captureTrace program := by
  cases h with
  | evaluated =>
    rw [hu.program_eq, hu.config_eq]
    exact Pass.reached_start config program s.answers
  | resumed hr hg hp => exact (hu.parked _ hp).resume _ _ _

end Session.Drives

namespace Dialogue

theorem drives_of_resumption {c : Continuation} {v : Value} {parked : Parked}
    {reply : Reply (Option Status)} (hlog : pending? log = s.pending)
    (hr : request.resumption? s = some (c, v)) (hp : s.parked = some parked) :
    drives log ⟨request, reply⟩ = (Exchange.mk request reply).accepted := by
  have hpending : s.pending = some parked.continuation := by simp [Session.pending, hp]
  cases request with
  | resume other v' => simp [drives, hlog, hpending, Exchange.answers]
  | provide question v' =>
    simp only [Request.resumption?, hpending] at hr
    split at hr
    · rename_i hq
      simp [drives, hlog, hpending, Exchange.answers, hq]
    · contradiction
  | _ => simp [Request.resumption?] at hr

theorem drives_of_rejected {c : Continuation} {v : Value} {e : EvalError}
    (hr : request.resumption? s = some (c, v)) (he : e.rejects = true) :
    drives log ⟨request, s.reply (.error e) []⟩ = false := by
  have hnot := Exchange.not_accepted s he request
  cases request with
  | resume => cases hp : pending? log <;> simp [drives, Exchange.answers, hp, hnot]
  | provide => cases hp : pending? log <;> simp [drives, Exchange.answers, hp, hnot]
  | _ => simp [Request.resumption?] at hr

theorem drives_of_unresumed {reply : Reply (Option Status)} (hlog : pending? log = s.pending)
    (hn : request.resumption? s = none) (hd : request ≠ .evaluate) :
    drives log ⟨request, reply⟩ = false := by
  cases request with
  | evaluate => contradiction
  | resume => contradiction
  | provide question v =>
    cases hp : s.pending with
    | none => simp [drives, hlog, hp]
    | some c =>
      have hne := (Request.ne_of_unresumed hn hp).symm
      simp [drives, hlog, hp, Exchange.answers, hne]
  | _ => cases hp : pending? log <;> simp [drives, Exchange.answers, hp]

end Dialogue

namespace History

theorem drives_eq_true (h : History program config log s) (hd : s.Drives request before pass) :
    drives log ⟨request, s.handle request⟩ = true := by
  cases hd with
  | evaluated => rfl
  | resumed hr hg hp ht hv hk =>
    obtain ⟨question, ho, _⟩ := h.orderly.parked _ hp
    rw [drives_of_resumption h.pending?_eq hr hp,
      (Session.Drives.resumed hr hg hp ht hv hk).handle_eq]
    exact (Session.settle_settled _ _).accepted
      (fun e he => Pass.rejects_of_resume ho he) request

theorem drives_or_responds (h : History program config log s) (request : Request) :
    (∃ before pass, s.Drives request before pass) ∨
    (s.Responds request (s.handle request) ∧
      drives log ⟨request, s.handle request⟩ = false) := by
  have hlog := h.pending?_eq
  have hr := Session.handle_reaction s request
  generalize s.handle request = reply at hr ⊢
  cases hr with
  | evaluated hs => exact .inl ⟨_, _, .evaluated⟩
  | resumed hr hg hp ht hk hs =>
    obtain ⟨hv, hk⟩ := Session.answer_of_checkKind hk
    exact .inl ⟨_, _, .resumed hr hg hp ht hv hk⟩
  | stale hr hg => exact .inr ⟨.refused rfl, drives_of_rejected hr rfl⟩
  | consumed hr hg hp => exact .inr ⟨.refused rfl, drives_of_rejected hr rfl⟩
  | mismatched hr hg hp ht hk =>
    rw [Session.eq_of_checkKind hk]
    exact .inr ⟨.refused rfl, drives_of_rejected hr rfl⟩
  | unknown hr hn hq =>
    refine .inr ⟨.refused rfl, drives_of_unresumed hlog hn ?_⟩
    rintro rfl
    contradiction
  | alreadyAnswered hn hq ha =>
    exact .inr ⟨.refused rfl, drives_of_unresumed hlog hn (by simp)⟩
  | aheadMismatched hn hq ha hk =>
    rw [Session.eq_of_checkKind hk]
    exact .inr ⟨.refused rfl, drives_of_unresumed hlog hn (by simp)⟩
  | ahead hn hq ha hk =>
    obtain ⟨rfl, _⟩ := Session.answer_of_checkKind hk
    exact .inr ⟨.ahead (by simpa [Answers.contains] using ha),
      drives_of_unresumed hlog hn (by simp)⟩
  | validated hq => exact .inr ⟨.validated, drives_of_unresumed hlog rfl (by simp)⟩
  | invalidated hq => exact .inr ⟨.invalidated, drives_of_unresumed hlog rfl (by simp)⟩
  | registered hq => exact .inr ⟨.registered, drives_of_unresumed hlog rfl (by simp)⟩
  | onFinish => exact .inr ⟨.onFinish, drives_of_unresumed hlog rfl (by simp)⟩
  | onUndefined => exact .inr ⟨.onUndefined, drives_of_unresumed hlog rfl (by simp)⟩

/-- A pass is gone on with only where it awaits an answer, and with a number or a boolean. -/
theorem start_or_resume (h : History program config log s) (hd : s.Drives request before pass) :
    (request = .evaluate ∧ pass = Pass.start config program s.answers) ∨
    ∃ p question c answer, s.parked = some p ∧ p.pass.outcome = .parked question ∧
      request.resumption? s = some (c, Answer.value answer) ∧
      pass = p.pass.resume config answer before.answers := by
  have hu := h.underway
  cases hd with
  | evaluated => exact .inl ⟨rfl, by rw [hu.program_eq, hu.config_eq]⟩
  | @resumed request c v p answer hr hg hp ht hv hk =>
    obtain ⟨question, ho, _⟩ := h.orderly.parked p hp
    exact .inr ⟨p, question, c, answer, hp, ho, hv ▸ hr, by rw [hu.config_eq]; rfl⟩

theorem arises_of_drives (h : History program config log s) (hd : s.Drives request before pass)
    (hp : ∀ p, s.parked = some p → Pass.Arises config program p.pass) :
    Pass.Arises config program pass := by
  rcases h.start_or_resume hd with ⟨_, rfl⟩ | ⟨p, _, _, answer, hparked, _, _, rfl⟩
  · exact .start s.answers
  · exact .resume answer before.answers (hp p hparked)

theorem arises_of_parked (h : History program config log s) {p : Parked}
    (hp : s.parked = some p) : Pass.Arises config program p.pass := by
  induction h generalizing p with
  | new => contradiction
  | @exchange log s request h ih =>
    rcases h.drives_or_responds request with ⟨before, pass, hd⟩ | ⟨hr, _⟩
    · rw [hd.handle_eq] at hp
      obtain rfl := (Session.settle_settled before pass).pass_eq hd.parked_eq hp
      exact h.arises_of_drives hd fun _ => ih
    · generalize s.handle request = reply at hr hp
      cases hr with
      | invalidated => contradiction
      | _ => exact ih hp

theorem arises (h : History program config log s) (hd : s.Drives request before pass) :
    Pass.Arises config program pass := h.arises_of_drives hd fun _ => h.arises_of_parked

end History

end Inquiry
