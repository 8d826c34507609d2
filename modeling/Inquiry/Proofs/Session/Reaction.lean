import Inquiry.Proofs.Pass.Interruption
import Inquiry.Proofs.Session.Dialogue
set_option autoImplicit false

namespace Inquiry

namespace Session

def answered (s : Session) (question : String) (answer : Answer) : Session :=
  { s with parked := none, answers := s.answers.insert question answer }

def nextTicket (s : Session) : Session := { s with tickets := s.tickets + 1 }

def continuationOf (s : Session) (question : Question) : Continuation :=
  ⟨question.text, question.kind, s.generation, s.tickets⟩

end Session

inductive Settled (s : Session) (pass : Pass) : Reply Status → Prop where
  | failed {e : EvalError} (ho : pass.outcome = .failed e) : Settled s pass (s.fail e)
  | unheard {question : Question} (ho : pass.outcome = .parked question)
      (hl : s.listener? question.text = none) (hr : s.config.requireHandlers = true) :
      Settled s pass (s.nextTicket.fail (.noHandler question.text))
  | parked {question : Question} (ho : pass.outcome = .parked question)
      (hl : (s.listener? question.text).isSome ∨ s.config.requireHandlers = false) :
      Settled s pass
        ⟨{ s.nextTicket with
            parked := some ⟨pass, s.nextTicket.continuationOf question⟩
            status := .waiting question.text },
          .ok (.waiting question.text),
          ((s.listener? question.text).toList.map fun name =>
            .request name (s.nextTicket.continuationOf question) ⟨some pass.machine.heap⟩)
          ++ s.finisher.toList.map fun name =>
            .waiting name s.unresolved ⟨some pass.machine.heap⟩⟩
  | undefined (ho : pass.outcome = .finished .undefined) :
      Settled s pass
        ⟨{ s with settled := some pass.machine.heap, status := .undefined }, .ok .undefined,
          s.undefinedListener.toList.map .undefined⟩
  | malformed {d : Datum} {e : TraceError} (ho : pass.outcome = .finished d)
      (hd : d ≠ .undefined) (ht : pass.machine.tape.decode = .error e) :
      Settled s pass (s.fail (.malformedTrace e))
  | complete {v : Value} {trace : Trace} (hr : pass.Results v trace) :
      Settled s pass
        ⟨{ s with settled := some pass.machine.heap, status := .complete v }, .ok (.complete v),
          s.finisher.toList.map fun name => .result name v trace ⟨some pass.machine.heap⟩⟩

theorem Settled.answers_eq {s : Session} {pass : Pass} {reply : Reply Status}
    (h : Settled s pass reply) : reply.session.answers = s.answers := by cases h <;> rfl

/-- The continuation and the value with which a request would go on with a parked pass. -/
def Request.resumption? (s : Session) : Request → Option (Continuation × Value)
  | .resume c v => some (c, v)
  | .provide question v =>
    match s.pending with
    | some c => if c.question = question then some (c, v) else none
    | none => none
  | _ => none

def Request.question? : Request → Option String
  | .provide question _ | .validate question | .invalidate question | .register question _ =>
    some question
  | _ => none

inductive Reaction (s : Session) : Request → Reply (Option Status) → Prop where
  | evaluated {reply : Reply Status}
      (h : Settled s.discardParked (Pass.start s.config s.program s.answers) reply) :
      Reaction s .evaluate (reply.map some)
  | stale {request : Request} {c : Continuation} {v : Value}
      (hr : request.resumption? s = some (c, v)) (hg : c.generation ≠ s.generation) :
      Reaction s request (s.reply (.error (.staleContinuation c.question)) [])
  | consumed {request : Request} {c : Continuation} {v : Value}
      (hr : request.resumption? s = some (c, v)) (hg : c.generation = s.generation)
      (hp : ∀ parked, s.parked = some parked → parked.continuation.ticket ≠ c.ticket) :
      Reaction s request (s.reply (.error (.continuationConsumed c.question)) [])
  | mismatched {request : Request} {c : Continuation} {v : Value} {parked : Parked}
      {e : EvalError} (hr : request.resumption? s = some (c, v))
      (hg : c.generation = s.generation) (hp : s.parked = some parked)
      (ht : parked.continuation.ticket = c.ticket)
      (hk : Session.checkKind c.question c.kind v = .error e) :
      Reaction s request (s.reply (.error e) [])
  | resumed {request : Request} {c : Continuation} {v : Value} {parked : Parked}
      {answer : Answer} {reply : Reply Status} (hr : request.resumption? s = some (c, v))
      (hg : c.generation = s.generation) (hp : s.parked = some parked)
      (ht : parked.continuation.ticket = c.ticket)
      (hk : Session.checkKind c.question c.kind v = .ok answer)
      (h : Settled (s.answered c.question answer)
        (parked.pass.resume s.config answer (s.answers.insert c.question answer)) reply) :
      Reaction s request (reply.map some)
  | unknown {request : Request} {question : String} (hr : request.question? = some question)
      (hn : request.resumption? s = none) (hq : s.program.question? question = none) :
      Reaction s request (s.reply (.error (.unknownQuestion question)) [])
  | alreadyAnswered {question : String} {v : Value} {q : Question}
      (hn : (Request.provide question v).resumption? s = none)
      (hq : s.program.question? question = some q) (ha : s.answers.contains question = true) :
      Reaction s (.provide question v) (s.reply (.error (.alreadyAnswered question)) [])
  | aheadMismatched {question : String} {v : Value} {q : Question} {e : EvalError}
      (hn : (Request.provide question v).resumption? s = none)
      (hq : s.program.question? question = some q) (ha : s.answers.contains question = false)
      (hk : Session.checkKind question q.kind v = .error e) :
      Reaction s (.provide question v) (s.reply (.error e) [])
  | ahead {question : String} {v : Value} {q : Question} {answer : Answer}
      (hn : (Request.provide question v).resumption? s = none)
      (hq : s.program.question? question = some q) (ha : s.answers.contains question = false)
      (hk : Session.checkKind question q.kind v = .ok answer) :
      Reaction s (.provide question v)
        ⟨{ s with answers := s.answers.insert question answer }, .ok (some s.status), []⟩
  | validated {question : String} {q : Question} (hq : s.program.question? question = some q) :
      Reaction s (.validate question)
        ⟨s, .ok none, (s.listener? question).toList.map fun name =>
          .validate name question s.globals⟩
  | invalidated {question : String} {q : Question}
      (hq : s.program.question? question = some q) :
      Reaction s (.invalidate question)
        ⟨{ s.discardParked with
            answers := s.answers.erase question, settled := none, status := .idle },
          .ok none, (s.listener? question).toList.map fun name =>
            .invalidate name question Globals.empty⟩
  | registered {question listener : String} {q : Question}
      (hq : s.program.question? question = some q) :
      Reaction s (.register question listener)
        ⟨{ s with listeners := (question, listener) ::
            s.listeners.filter fun entry => entry.1 != question }, .ok none, []⟩
  | onFinish {listener : String} :
      Reaction s (.onFinish listener) ⟨s.onFinish listener, .ok none, []⟩
  | onUndefined {listener : String} :
      Reaction s (.onUndefined listener) ⟨s.onUndefined listener, .ok none, []⟩

namespace Session

theorem eq_of_checkKind {question : String} {expected : Kind} {v : Value} {e : EvalError}
    (h : checkKind question expected v = .error e) :
    e = .inputKindMismatch question expected v.category := by
  unfold checkKind at h
  split at h
  · split at h
    · contradiction
    · exact (Except.error.inj h).symm
  · exact (Except.error.inj h).symm

theorem park_settled {s : Session} {pass : Pass} {question : Question}
    (ho : pass.outcome = .parked question) : Settled s pass (s.park pass question) := by
  by_cases hc : (s.listener? question.text).isNone && s.config.requireHandlers
  · have hp : s.park pass question = s.nextTicket.fail (.noHandler question.text) := if_pos hc
    rw [hp]
    simp only [Bool.and_eq_true, Option.isNone_iff_eq_none] at hc
    exact .unheard ho hc.1 hc.2
  · have hl : (s.listener? question.text).isSome ∨ s.config.requireHandlers = false := by
      cases hl : s.listener? question.text <;> simp_all
    rw [show s.park pass question = _ from if_neg hc]
    exact .parked ho hl

theorem settle_settled (s : Session) (pass : Pass) : Settled s pass (s.settle pass) := by
  cases ho : pass.outcome with
  | failed e =>
    simp only [settle, ho]
    exact .failed ho
  | parked question =>
    simp only [settle, ho]
    exact park_settled ho
  | finished d =>
    by_cases hd : d = .undefined
    · subst hd
      simp only [settle, ho]
      exact .undefined ho
    · cases ht : pass.machine.tape.decode with
      | error e =>
        have h : s.settle pass = s.fail (.malformedTrace e) := by
          simp [settle, ho, ht]
        rw [h]
        exact .malformed ho hd ht
      | ok trace =>
        simp only [settle, ho, ht]
        exact .complete ⟨d, ho, hd, rfl, ht⟩

theorem resume_reaction {s : Session} {request : Request} {c : Continuation} {v : Value}
    (hr : request.resumption? s = some (c, v)) :
    Reaction s request ((s.resume c v).map some) := by
  by_cases hg : c.generation = s.generation
  · cases hp : s.parked with
    | none =>
      have h : s.resume c v = s.reply (.error (.continuationConsumed c.question)) [] := by
        simp [resume, hg, hp]
      rw [h]
      exact .consumed hr hg (by simp [hp])
    | some parked =>
      by_cases ht : parked.continuation.ticket = c.ticket
      · cases hk : checkKind c.question c.kind v with
        | error e =>
          have h : s.resume c v = s.reply (.error e) [] := by simp [resume, hg, hp, ht, hk]
          rw [h]
          exact .mismatched hr hg hp ht hk
        | ok answer =>
          have h : s.resume c v = (s.answered c.question answer).settle (parked.pass.resume
              s.config answer (s.answers.insert c.question answer)) := by
            simp [resume, hg, hp, ht, hk, answered]
          rw [h]
          exact .resumed hr hg hp ht hk (settle_settled _ _)
      · have h : s.resume c v = s.reply (.error (.continuationConsumed c.question)) [] := by
          simp [resume, hg, hp, ht]
        rw [h]
        exact .consumed hr hg (by simp [hp, ht])
  · have h : s.resume c v = s.reply (.error (.staleContinuation c.question)) [] := by
      simp [resume, hg]
    rw [h]
    exact .stale hr hg

theorem answerAhead_reaction {s : Session} {question : String} {v : Value}
    (hn : (Request.provide question v).resumption? s = none) :
    Reaction s (.provide question v) ((s.answerAhead question v).map some) := by
  cases hq : s.program.question? question with
  | none =>
    simp only [answerAhead, withQuestion, hq]
    exact .unknown rfl hn hq
  | some q =>
    simp only [answerAhead, withQuestion, hq]
    cases ha : s.answers.contains question with
    | true => exact .alreadyAnswered hn hq ha
    | false =>
      cases hk : checkKind question q.kind v with
      | error e => exact .aheadMismatched hn hq ha hk
      | ok answer => exact .ahead hn hq ha hk

theorem provide_reaction (s : Session) (question : String) (v : Value) :
    Reaction s (.provide question v) ((s.provide question v).map some) := by
  cases hp : s.pending with
  | none =>
    simp only [provide, hp]
    exact answerAhead_reaction (by simp [Request.resumption?, hp])
  | some c =>
    by_cases hc : c.question = question
    · simp only [provide, hp, hc]
      exact resume_reaction (by simp [Request.resumption?, hp, hc])
    · simp only [provide, hp, hc]
      exact answerAhead_reaction (by simp [Request.resumption?, hp, hc])

theorem handle_reaction (s : Session) (request : Request) :
    Reaction s request (s.handle request) := by
  cases request with
  | evaluate => exact .evaluated (settle_settled _ _)
  | provide question v => exact provide_reaction s question v
  | resume c v => exact resume_reaction rfl
  | validate question =>
    cases hq : s.program.question? question with
    | none =>
      simp only [handle, validate, withQuestion, hq]
      exact .unknown rfl rfl hq
    | some q =>
      simp only [handle, validate, withQuestion, hq]
      exact .validated hq
  | invalidate question =>
    cases hq : s.program.question? question with
    | none =>
      simp only [handle, invalidate, withQuestion, hq]
      exact .unknown rfl rfl hq
    | some q =>
      simp only [handle, invalidate, withQuestion, hq]
      exact .invalidated hq
  | register question listener =>
    cases hq : s.program.question? question with
    | none =>
      simp only [handle, register, withQuestion, hq]
      exact .unknown rfl rfl hq
    | some q =>
      simp only [handle, register, withQuestion, hq]
      exact .registered hq
  | onFinish listener => exact .onFinish
  | onUndefined listener => exact .onUndefined

end Session

end Inquiry
