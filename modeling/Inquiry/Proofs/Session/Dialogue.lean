import Inquiry.Session
set_option autoImplicit false

/-!
Dialogues of a host with a session: one request after the other, from a new session on. Of the
continuations only those that the session gave out are given back to it.
-/

namespace Inquiry

inductive Request where
  | evaluate
  | provide (question : String) (v : Value)
  | resume (c : Continuation) (v : Value)
  | validate (question : String)
  | invalidate (question : String)
  | register (question listener : String)
  | onFinish (listener : String)
  | onUndefined (listener : String)

def Reply.map {α β : Type} (f : α → β) (r : Reply α) : Reply β :=
  ⟨r.session, r.result.map f, r.events⟩

/-- Grants a request. What has no status to report reports none. -/
def Session.handle (s : Session) : Request → Reply (Option Status)
  | .evaluate => s.evaluate.map some
  | .provide question v => (s.provide question v).map some
  | .resume c v => (s.resume c v).map some
  | .validate question => (s.validate question).map fun _ => none
  | .invalidate question => (s.invalidate question).map fun _ => none
  | .register question listener => (s.register question listener).map fun _ => none
  | .onFinish listener => ⟨s.onFinish listener, .ok none, []⟩
  | .onUndefined listener => ⟨s.onUndefined listener, .ok none, []⟩

structure Exchange where
  request : Request
  reply : Reply (Option Status)

def Event.result? : Event → Option (Value × Trace)
  | .result _ v trace _ => some (v, trace)
  | _ => none

def Exchange.result? (e : Exchange) : Option (Value × Trace) :=
  e.reply.events.findSome? Event.result?

namespace Dialogue

/-- The continuations that were given out, in a log whose last exchange comes first. -/
def issued (log : List Exchange) : List Continuation :=
  log.filterMap fun e => e.reply.session.pending

def lastResult? (log : List Exchange) : Option (Value × Trace) := log.findSome? Exchange.result?

end Dialogue

/-- A request whose continuation, if it has one, is among those given out. -/
def Request.Honest (log : List Exchange) : Request → Prop
  | .resume c _ => c ∈ Dialogue.issued log
  | _ => True

instance (log : List Exchange) : (request : Request) → Decidable (request.Honest log)
  | .resume c _ => inferInstanceAs (Decidable (c ∈ Dialogue.issued log))
  | .evaluate | .provide _ _ | .validate _ | .invalidate _ | .register _ _ | .onFinish _
  | .onUndefined _ => .isTrue trivial

/-- The sessions a dialogue can lead to, with the exchanges that led there, the last one first. -/
inductive Dialogue (program : Program) (config : Config) : List Exchange → Session → Prop where
  | new : Dialogue program config [] (Session.new program config)
  | exchange {log : List Exchange} {s : Session} (request : Request)
      (h : Dialogue program config log s) (hr : request.Honest log) :
      Dialogue program config (⟨request, s.handle request⟩ :: log) (s.handle request).session

end Inquiry
