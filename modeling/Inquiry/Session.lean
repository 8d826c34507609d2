import Inquiry.Derivation.Trace
import Inquiry.Expr.Questions
import Inquiry.Heap.Reveal
import Inquiry.Pass
set_option autoImplicit false

namespace Inquiry

/-- A claim on the place where a pass is parked. It serves once, and only while the pass lives. -/
structure Continuation where
  question : String
  kind : Kind
  /-- Changes whenever a parked pass is given up. -/
  generation : Nat
  /-- Tells apart the places where passes were parked. -/
  ticket : Nat
  deriving DecidableEq, Repr

inductive Status where
  | idle
  | waiting (question : String)
  | complete (v : Value)
  | undefined
  deriving DecidableEq, Repr

inductive Event where
  | request (listener : String) (continuation : Continuation) (globals : Globals)
  | validate (listener : String) (question : String) (globals : Globals)
  | invalidate (listener : String) (question : String) (globals : Globals)
  | result (listener : String) (v : Value) (trace : Trace) (globals : Globals)
  | waiting (listener : String) (unresolved : List Question) (globals : Globals)
  | undefined (listener : String)

structure Parked where
  pass : Pass
  continuation : Continuation

structure Session where
  program : Program
  config : Config
  answers : Answers
  parked : Option Parked
  listeners : List (String × String)
  finisher : Option String
  undefinedListener : Option String
  /-- The heap of the last pass that ended, kept to be looked at. -/
  settled : Option Heap
  generation : Nat
  tickets : Nat
  status : Status

/-- The session after a request, what the request came to, and who was told what on the way. -/
structure Reply (α : Type) where
  session : Session
  result : Except EvalError α
  events : List Event

namespace Session

def new (program : Program) (config : Config) : Session :=
  ⟨program, config, .empty, none, [], none, none, none, 0, 0, .idle⟩

def questions (s : Session) : List Question := s.program.questions

def unresolved (s : Session) : List Question :=
  s.questions.filter fun q => !s.answers.contains q.text

def answer? (s : Session) (question : String) : Option Value :=
  (s.answers.get? question).map Answer.value

def pending (s : Session) : Option Continuation := s.parked.map Parked.continuation

def globals (s : Session) : Globals :=
  match s.parked with
  | some parked => ⟨some parked.pass.machine.heap⟩
  | none => ⟨s.settled⟩

def listener? (s : Session) (question : String) : Option String :=
  (s.listeners.find? fun entry => entry.1 == question).map Prod.snd

def reply {α : Type} (s : Session) (result : Except EvalError α) (events : List Event) : Reply α :=
  ⟨s, result, events⟩

def fail (s : Session) (e : EvalError) : Reply Status :=
  ⟨{ s with status := .idle }, .error e, []⟩

def withQuestion {α : Type} (s : Session) (question : String) (act : Question → Reply α) :
    Reply α :=
  match s.program.question? question with
  | some q => act q
  | none => s.reply (.error (.unknownQuestion question)) []

def register (s : Session) (question listener : String) : Reply Unit :=
  s.withQuestion question fun _ =>
    let others := s.listeners.filter fun entry => entry.1 != question
    ⟨{ s with listeners := (question, listener) :: others }, .ok (), []⟩

def onFinish (s : Session) (listener : String) : Session := { s with finisher := some listener }

def onUndefined (s : Session) (listener : String) : Session :=
  { s with undefinedListener := some listener }

/-- Gives up the parked pass, if there is one. Continuations made so far are void. -/
def discardParked (s : Session) : Session :=
  { s with parked := none, generation := s.generation + 1 }

def park (s : Session) (pass : Pass) (question : Question) : Reply Status :=
  let s := { s with tickets := s.tickets + 1 }
  let continuation : Continuation := ⟨question.text, question.kind, s.generation, s.tickets⟩
  let globals : Globals := ⟨some pass.machine.heap⟩
  let listener := s.listener? question.text
  if listener.isNone && s.config.requireHandlers then s.fail (.noHandler question.text)
  else
    let request := listener.toList.map fun name => .request name continuation globals
    let waiting := s.finisher.toList.map fun name => .waiting name s.unresolved globals
    let status := .waiting question.text
    ⟨{ s with parked := some ⟨pass, continuation⟩, status }, .ok status, request ++ waiting⟩

def settle (s : Session) (pass : Pass) : Reply Status :=
  match pass.outcome with
  | .failed e => s.fail e
  | .parked question => s.park pass question
  | .finished .undefined =>
    ⟨{ s with settled := some pass.machine.heap, status := .undefined }, .ok .undefined,
      s.undefinedListener.toList.map .undefined⟩
  | .finished d =>
    let heap := pass.machine.heap
    let v := heap.reveal d
    match pass.machine.tape.decode with
    | .error e => s.fail (.malformedTrace e)
    | .ok trace =>
      ⟨{ s with settled := some heap, status := .complete v }, .ok (.complete v),
        s.finisher.toList.map fun name => .result name v trace ⟨some heap⟩⟩

/-- Starts a new pass. What is answered already is not asked again. -/
def evaluate (s : Session) : Reply Status :=
  let s := s.discardParked
  s.settle (Pass.start s.config s.program s.answers)

def checkKind (question : String) (expected : Kind) (v : Value) : Except EvalError Answer :=
  match v.answer? with
  | some answer =>
    if answer.kind = expected then .ok answer
    else .error (.inputKindMismatch question expected v.category)
  | none => .error (.inputKindMismatch question expected v.category)

def resume (s : Session) (c : Continuation) (v : Value) : Reply Status :=
  if c.generation != s.generation then s.reply (.error (.staleContinuation c.question)) []
  else
    match s.parked with
    | none => s.reply (.error (.continuationConsumed c.question)) []
    | some parked =>
      if parked.continuation.ticket != c.ticket then
        s.reply (.error (.continuationConsumed c.question)) []
      else
        match checkKind c.question c.kind v with
        | .error e => s.reply (.error e) []
        | .ok answer =>
          let s := { s with parked := none, answers := s.answers.insert c.question answer }
          s.settle (parked.pass.resume s.config answer s.answers)

def answerAhead (s : Session) (question : String) (v : Value) : Reply Status :=
  s.withQuestion question fun q =>
    if s.answers.contains question then s.reply (.error (.alreadyAnswered question)) []
    else
      match checkKind question q.kind v with
      | .error e => s.reply (.error e) []
      | .ok answer => ⟨{ s with answers := s.answers.insert question answer }, .ok s.status, []⟩

/-- Answers a question. If a pass is parked on it, this goes on with the pass. -/
def provide (s : Session) (question : String) (v : Value) : Reply Status :=
  match s.pending with
  | some c => if c.question = question then s.resume c v else s.answerAhead question v
  | none => s.answerAhead question v

def validate (s : Session) (question : String) : Reply Unit :=
  s.withQuestion question fun _ =>
    s.reply (.ok ()) ((s.listener? question).toList.map fun name =>
      .validate name question s.globals)

/-- Withdraws the answer to a question, and with it all that may rest on it. -/
def invalidate (s : Session) (question : String) : Reply Unit :=
  s.withQuestion question fun _ =>
    let s := { s.discardParked with
      answers := s.answers.erase question, settled := none, status := .idle }
    s.reply (.ok ()) ((s.listener? question).toList.map fun name =>
      .invalidate name question s.globals)

end Session

end Inquiry
