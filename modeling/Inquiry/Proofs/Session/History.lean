import Inquiry.Proofs.Machine.Failure
import Inquiry.Proofs.Session.Order
set_option autoImplicit false

/-!
Histories of a session: any requests one after the other, with continuations from anywhere. What
an exchange does to parked passes is one of four courses, which can be told from the request, its
reply and the continuation that was pending before.
-/

namespace Inquiry

open Dialogue

/-- The sessions any requests can lead to, with the exchanges that led there, the last one first. -/
inductive History (program : Program) (config : Config) : List Exchange → Session → Prop where
  | new : History program config [] (Session.new program config)
  | exchange {log : List Exchange} {s : Session} (request : Request)
      (h : History program config log s) :
      History program config (⟨request, s.handle request⟩ :: log) (s.handle request).session

/-- The errors that turn a continuation down, or the value that came with it, and change nothing. -/
def EvalError.rejects : EvalError → Bool
  | .staleContinuation _ | .continuationConsumed _ | .inputKindMismatch _ _ _ => true
  | _ => false

namespace Exchange

def accepted (e : Exchange) : Bool :=
  match e.reply.result with
  | .ok _ => true
  | .error error => !error.rejects

theorem not_accepted (s : Session) {error : EvalError} (he : error.rejects = true)
    (request : Request) : accepted ⟨request, s.reply (.error error) []⟩ = false := by
  simp [accepted, Session.reply, he]

/-- Whether the pass that was parked with this continuation got its answer, in either way. -/
def answers (c : Continuation) (e : Exchange) : Bool :=
  match e.request with
  | .resume _ _ => e.accepted
  | .provide question _ => question == c.question && e.accepted
  | _ => false

def voids (e : Exchange) : Bool :=
  match e.request with
  | .evaluate => true
  | .invalidate _ => e.reply.result.isOk
  | _ => false

def resumes (c : Continuation) (e : Exchange) : Bool :=
  match e.request with
  | .resume other _ => other == c && e.accepted
  | _ => false

end Exchange

namespace Dialogue

/-- The continuation that is pending after the exchanges. -/
def pending? : List Exchange → Option Continuation
  | [] => none
  | e :: _ => e.reply.session.pending

def drives (earlier : List Exchange) (e : Exchange) : Bool :=
  match e.request with
  | .evaluate => true
  | _ => (pending? earlier).any e.answers

/-- The continuations of the places where a pass was parked, the last one first. -/
def parkings : List Exchange → List Continuation
  | [] => []
  | e :: earlier =>
    (if drives earlier e then e.reply.session.pending.toList else []) ++ parkings earlier

/-- Whether some exchange was as described, given those before it. -/
def Happened (p : List Exchange → Exchange → Prop) (log : List Exchange) : Prop :=
  ∃ later e earlier, log = later ++ e :: earlier ∧ p earlier e

/-- Whether the pass of the continuation was given up after the continuation was given out. -/
def Voided (c : Continuation) : List Exchange → Prop :=
  Happened fun earlier e => c ∈ issued earlier ∧ e.voids = true

/-- Whether the question at the place of the continuation was answered while it was pending. -/
def Answered (c : Continuation) : List Exchange → Prop :=
  Happened fun earlier e => pending? earlier = some c ∧ e.answers c = true

theorem not_happened_nil {p : List Exchange → Exchange → Prop} : ¬Happened p [] := by
  rintro ⟨later, e, earlier, h, _⟩
  cases later <;> contradiction

theorem happened_cons {p : List Exchange → Exchange → Prop} {e : Exchange}
    {log : List Exchange} : Happened p (e :: log) ↔ p log e ∨ Happened p log := by
  constructor
  · rintro ⟨later, e', earlier, h, hp⟩
    cases later with
    | nil =>
      simp only [List.nil_append, List.cons.injEq] at h
      obtain ⟨rfl, rfl⟩ := h
      exact .inl hp
    | cons first later =>
      simp only [List.cons_append, List.cons.injEq] at h
      exact .inr ⟨later, e', earlier, h.2, hp⟩
  · rintro (hp | ⟨later, e', earlier, rfl, hp⟩)
    · exact ⟨[], e, log, rfl, hp⟩
    · exact ⟨e :: later, e', earlier, rfl, hp⟩

theorem mem_issued_of_pending {log : List Exchange} {c : Continuation}
    (h : pending? log = some c) : c ∈ issued log := by
  cases log with
  | nil => simp [pending?] at h
  | cons e earlier =>
    simp only [pending?] at h
    simp [issued, h]

theorem mem_issued_of_mem {e : Exchange} {log : List Exchange} {c : Continuation}
    (h : c ∈ issued log) : c ∈ issued (e :: log) := by
  simp only [issued, List.mem_filterMap, List.mem_cons] at h ⊢
  obtain ⟨e', he, hc⟩ := h
  exact ⟨e', .inr he, hc⟩

theorem mem_issued_of_happened {p : List Exchange → Exchange → Prop} {log : List Exchange}
    {c : Continuation} (hp : ∀ earlier e, p earlier e → c ∈ issued earlier)
    (h : Happened p log) : c ∈ issued log := by
  induction log with
  | nil => exact absurd h not_happened_nil
  | cons e log ih =>
    rcases happened_cons.mp h with h | h
    · exact mem_issued_of_mem (hp log e h)
    · exact mem_issued_of_mem (ih h)

theorem mem_issued_of_voided {log : List Exchange} {c : Continuation} (h : Voided c log) :
    c ∈ issued log := mem_issued_of_happened (fun _ _ hv => hv.1) h

theorem mem_issued_of_answered {log : List Exchange} {c : Continuation} (h : Answered c log) :
    c ∈ issued log := mem_issued_of_happened (fun _ _ ha => mem_issued_of_pending ha.1) h

end Dialogue

namespace Pass

variable {program : Program} {config : Config} {answers : Answers} {e : EvalError}

theorem rejects_of_ofEvaluation (h : e.ofEvaluation = true ∨ e = .gasExhausted) :
    e.rejects = false := by
  rcases h with h | rfl
  · cases e <;> simp [EvalError.ofEvaluation, EvalError.rejects] at h ⊢
  · rfl

theorem rejects_of_resume {pass : Pass} {question : Question} {answer : Answer}
    (ho : pass.outcome = .parked question)
    (h : (pass.resume config answer answers).outcome = .failed e) : e.rejects = false := by
  rw [resume_of_parked ho] at h
  exact rejects_of_ofEvaluation (Machine.ofEvaluation_of_run h)

end Pass

def Session.Drove (before after : Session) : Prop :=
  after.generation = before.generation ∧
    ((after.pending = none ∧ before.tickets ≤ after.tickets) ∨
      ∃ c, after.pending = some c ∧ c.generation = after.generation ∧
        c.ticket = before.tickets + 1 ∧ after.tickets = before.tickets + 1)

theorem Settled.drove {s : Session} {pass : Pass} {reply : Reply Status} (h : Settled s pass reply)
    (hp : s.parked = none) : s.Drove reply.session := by
  have hnone : s.pending = none := by simp [Session.pending, hp]
  cases h with
  | parked ho hl => exact ⟨rfl, .inr ⟨_, rfl, rfl, rfl, rfl⟩⟩
  | unheard ho hl hr => exact ⟨rfl, .inl ⟨hnone, Nat.le_succ _⟩⟩
  | _ => exact ⟨rfl, .inl ⟨hnone, Nat.le_refl _⟩⟩

theorem Settled.accepted {s : Session} {pass : Pass} {reply : Reply Status}
    (h : Settled s pass reply)
    (hr : ∀ e, pass.outcome = .failed e → e.rejects = false) (request : Request) :
    (Exchange.mk request (reply.map some)).accepted = true := by
  cases h with
  | failed ho => simp [Exchange.accepted, Reply.map, Session.fail, Except.map, hr _ ho]
  | _ => rfl

/-- The courses an exchange can take, by what it does to the parked pass. -/
inductive Course (s : Session) (e : Exchange) : Prop where
  | kept (hv : e.voids = false) (ha : ∀ c, s.pending = some c → e.answers c = false)
      (hr : ∀ c, e.resumes c = false) (hd : e.request ≠ .evaluate)
      (hp : e.reply.session.pending = s.pending)
      (hg : e.reply.session.generation = s.generation)
      (ht : e.reply.session.tickets = s.tickets)
  | dropped (hv : e.voids = true) (ha : ∀ c, e.answers c = false)
      (hr : ∀ c, e.resumes c = false) (hd : e.request ≠ .evaluate)
      (hp : e.reply.session.pending = none)
      (hg : e.reply.session.generation = s.generation + 1)
      (ht : e.reply.session.tickets = s.tickets)
  | evaluated (hv : e.voids = true) (hr : ∀ c, e.resumes c = false) (hd : e.request = .evaluate)
      (hs : s.discardParked.Drove e.reply.session)
  | answered {c : Continuation} (hc : s.pending = some c) (hv : e.voids = false)
      (ha : e.answers c = true)
      (hr : ∀ other, e.resumes other = true →
        other.generation = c.generation ∧ other.ticket = c.ticket)
      (hd : e.request ≠ .evaluate) (hs : s.Drove e.reply.session)

namespace Session

variable {log : List Exchange} {s : Session}

theorem course_of_rejected {request : Request} {c : Continuation} {v : Value} {error : EvalError}
    (hr : request.resumption? s = some (c, v)) (he : error.rejects = true) :
    Course s ⟨request, s.reply (.error error) []⟩ := by
  have hnot := Exchange.not_accepted s he request
  cases request with
  | resume other v' =>
    exact .kept rfl (fun _ _ => hnot) (by simp [Exchange.resumes, hnot]) (by simp) rfl rfl rfl
  | provide question v' =>
    exact .kept rfl (by simp [Exchange.answers, hnot]) (fun _ => rfl) (by simp) rfl rfl rfl
  | _ => simp [Request.resumption?] at hr

theorem course_of_ahead {question : String} {v : Value} {reply : Reply (Option Status)}
    (hn : (Request.provide question v).resumption? s = none)
    (hp : reply.session.pending = s.pending) (hg : reply.session.generation = s.generation)
    (ht : reply.session.tickets = s.tickets) : Course s ⟨.provide question v, reply⟩ := by
  refine .kept rfl ?_ (fun _ => rfl) (by simp) hp hg ht
  intro c hc
  simp [Exchange.answers, Ne.symm (Request.ne_of_unresumed hn hc)]

theorem course_of_resumed {request : Request} {c : Continuation} {v : Value} {parked : Parked}
    {answer : Answer} {reply : Reply Status} (ho : Orderly log s)
    (hr : request.resumption? s = some (c, v)) (hg : c.generation = s.generation)
    (hp : s.parked = some parked) (ht : parked.continuation.ticket = c.ticket)
    (hs : Settled (s.answered c.question answer)
      (parked.pass.resume s.config answer (s.answers.insert c.question answer)) reply) :
    Course s ⟨request, reply.map some⟩ := by
  obtain ⟨question, hout, hcont, _⟩ := ho.parked parked hp
  have hpending : s.pending = some parked.continuation := by simp [pending, hp]
  have hgen : c.generation = parked.continuation.generation := by rw [hg, hcont]; rfl
  have hdrove : s.Drove reply.session := hs.drove rfl
  have haccepted := hs.accepted (fun e he => Pass.rejects_of_resume hout he) request
  cases request with
  | resume other v' =>
    simp only [Request.resumption?, Option.some.injEq, Prod.mk.injEq] at hr
    refine .answered hpending rfl haccepted ?_ (by simp) hdrove
    intro another ha
    simp only [Exchange.resumes, Bool.and_eq_true, beq_iff_eq] at ha
    rw [← ha.1, hr.1]
    exact ⟨hgen, ht.symm⟩
  | provide text v' =>
    simp only [Request.resumption?, hpending] at hr
    split at hr
    · rename_i hq
      refine .answered hpending rfl ?_ (by simp [Exchange.resumes]) (by simp) hdrove
      simp [Exchange.answers, hq, haccepted]
    · contradiction
  | _ => simp [Request.resumption?] at hr

theorem course (ho : Orderly log s) (request : Request) :
    Course s ⟨request, s.handle request⟩ := by
  have hr := handle_reaction s request
  generalize s.handle request = reply at hr
  cases hr with
  | evaluated hs => exact .evaluated rfl (fun _ => rfl) rfl (hs.drove rfl)
  | stale hr hg => exact course_of_rejected hr rfl
  | consumed hr hg hp => exact course_of_rejected hr rfl
  | @mismatched _ c v parked e hr hg hp ht hk =>
    exact course_of_rejected hr (eq_of_checkKind hk ▸ rfl)
  | resumed hr hg hp ht hk hs => exact course_of_resumed ho hr hg hp ht hs
  | @unknown _ question hr hn hq =>
    cases request with
    | provide text v => exact course_of_ahead hn rfl rfl rfl
    | validate text => exact .kept rfl (fun _ _ => rfl) (fun _ => rfl) (by simp) rfl rfl rfl
    | invalidate text => exact .kept rfl (fun _ _ => rfl) (fun _ => rfl) (by simp) rfl rfl rfl
    | register text listener =>
      exact .kept rfl (fun _ _ => rfl) (fun _ => rfl) (by simp) rfl rfl rfl
    | _ => simp [Request.question?] at hr
  | alreadyAnswered hn hq ha => exact course_of_ahead hn rfl rfl rfl
  | aheadMismatched hn hq ha hk => exact course_of_ahead hn rfl rfl rfl
  | ahead hn hq ha hk => exact course_of_ahead hn rfl rfl rfl
  | invalidated hq => exact .dropped rfl (fun _ => rfl) (fun _ => rfl) (by simp) rfl rfl rfl
  | _ => exact .kept rfl (fun _ _ => rfl) (fun _ => rfl) (by simp) rfl rfl rfl

end Session

namespace History

variable {program : Program} {config : Config} {log : List Exchange} {s : Session}

theorem orderly (h : History program config log s) : Orderly log s := by
  induction h with
  | new => exact ⟨by simp [Session.new], by simp [Session.new], by simp [issued], by simp [issued]⟩
  | exchange request _ ih => exact ih.exchange request

theorem pending?_eq (h : History program config log s) : pending? log = s.pending := by
  cases h <;> rfl

end History

theorem Dialogue.history {program : Program} {config : Config} {log : List Exchange} {s : Session}
    (h : Dialogue program config log s) : History program config log s := by
  induction h with
  | new => exact .new
  | exchange request _ _ ih => exact .exchange request ih

end Inquiry
