import Inquiry.Proofs.Session.Driving
set_option autoImplicit false

/-!
Sessions in another guise. A program, its settings and the machines of its passes may be replaced by
others that no pass can tell from them; then no request can either, and the host has the same
dialogue with the session that it would have had before.
-/

namespace Inquiry

/-- What there is in place of programs, settings and machines, and of what machines leave behind. -/
structure Guise where
  program : Program → Program
  config : Config → Config
  machine : Machine → Machine
  heap : Heap → Heap
  trace : Trace → Trace

namespace Guise

variable (g : Guise)

def pass (p : Pass) : Pass := { p with machine := g.machine p.machine }

def globals (globals : Globals) : Globals := ⟨globals.heap.map g.heap⟩

def event : Event → Event
  | .request listener continuation globals => .request listener continuation (g.globals globals)
  | .validate listener question globals => .validate listener question (g.globals globals)
  | .invalidate listener question globals => .invalidate listener question (g.globals globals)
  | .result listener v trace globals => .result listener v (g.trace trace) (g.globals globals)
  | .waiting listener unresolved globals => .waiting listener unresolved (g.globals globals)
  | .undefined listener => .undefined listener

def parked (p : Parked) : Parked := { p with pass := g.pass p.pass }

def session (s : Session) : Session :=
  { s with
    program := g.program s.program
    config := g.config s.config
    parked := s.parked.map g.parked
    settled := s.settled.map g.heap }

def reply {α : Type} (r : Reply α) : Reply α :=
  ⟨g.session r.session, r.result, r.events.map g.event⟩

def exchange (e : Exchange) : Exchange := ⟨e.request, g.reply e.reply⟩

/-- No pass over the program can tell the guise from what it stands for. -/
structure Fits (program : Program) (config : Config) : Prop where
  questions_eq : (g.program program).questions = program.questions
  requireHandlers_eq : (g.config config).requireHandlers = config.requireHandlers
  start_eq (answers : Answers) : Pass.start (g.config config) (g.program program) answers =
    g.pass (Pass.start config program answers)
  resume_eq (pass : Pass) (answer : Answer) (answers : Answers) :
    (g.pass pass).resume (g.config config) answer answers =
      g.pass (pass.resume config answer answers)
  heap_eq (m : Machine) : (g.machine m).heap = g.heap m.heap
  reveal_eq (h : Heap) (d : Datum) : (g.heap h).reveal d = h.reveal d
  decode_eq {m : Machine} {trace : Trace} (h : m.tape.decode = .ok trace) :
    (g.machine m).tape.decode = .ok (g.trace trace)

theorem pending_session (s : Session) : (g.session s).pending = s.pending := by
  simp only [Session.pending, session, Option.map_map]
  rfl

theorem resumption?_session (s : Session) (request : Request) :
    request.resumption? (g.session s) = request.resumption? s := by
  cases request with
  | provide => simp only [Request.resumption?, g.pending_session s]
  | _ => rfl

end Guise

theorem Session.Drives.underway {program : Program} {config : Config} {s before : Session}
    {request : Request} {pass : Pass} (h : s.Drives request before pass)
    (hu : s.Underway program config) : before.Underway program config where
  program_eq := by cases h <;> exact hu.program_eq
  config_eq := by cases h <;> exact hu.config_eq
  parked p hp := by cases h.parked_eq.symm.trans hp

namespace Guise.Fits

variable {g : Guise} {program : Program} {config : Config} {s : Session}
  (hg : g.Fits program config) (hu : s.Underway program config)
include hg

theorem question?_eq (question : String) :
    (g.program program).question? question = program.question? question := by
  rw [Program.question?, hg.questions_eq, Program.question?]

theorem globals_session : (g.session s).globals = g.globals s.globals := by
  simp only [Session.globals, Guise.session]
  cases s.parked with
  | none => rfl
  | some p => exact congrArg (fun h => Globals.mk (some h)) (hg.heap_eq p.pass.machine)

include hu

theorem questions_session : (g.session s).questions = s.questions := by
  simp only [Session.questions, Guise.session, hu.program_eq, hg.questions_eq]

theorem requireHandlers_session :
    (g.session s).config.requireHandlers = s.config.requireHandlers := by
  simp only [Guise.session, hu.config_eq, hg.requireHandlers_eq]

theorem settle_eq {pass : Pass} {reply : Reply Status} (hs : Settled s pass reply)
    (hr : pass.Reached config.captureTrace program) :
    (g.session s).settle (g.pass pass) = g.reply reply := by
  have hrequire := hg.requireHandlers_session hu
  obtain ⟨m, outcome, turns⟩ := pass
  have hheap : (g.machine m).heap = g.heap m.heap := hg.heap_eq m
  cases hs with
  | failed ho =>
    obtain rfl : outcome = .failed _ := ho
    rfl
  | @unheard question ho hl hq =>
    obtain rfl : outcome = .parked question := ho
    have hc : ((s.listener? question.text).isNone &&
        (g.session s).config.requireHandlers) = true := by simp [hl, hrequire, hq]
    exact if_pos hc
  | @parked question ho hl =>
    obtain rfl : outcome = .parked question := ho
    have hc : ¬((s.listener? question.text).isNone &&
        (g.session s).config.requireHandlers) = true := by
      rw [hrequire, Bool.and_eq_true, Option.isNone_iff_eq_none, not_and_or]
      exact hl.imp Option.isSome_iff_ne_none.mp (by simp [·])
    have hunresolved : Session.unresolved
        { g.session s with tickets := (g.session s).tickets + 1 } = s.unresolved :=
      congrArg (List.filter fun q : Question => !s.answers.contains q.text)
        (hg.questions_session hu)
    refine (if_neg hc).trans ?_
    simp only [Guise.pass, Guise.reply, List.map_append, List.map_map, hheap, hunresolved]
    rfl
  | undefined ho =>
    obtain rfl : outcome = .finished .undefined := ho
    simp only [Session.settle, Guise.pass, hheap, Guise.reply, List.map_map]
    rfl
  | malformed ho hd ht =>
    -- What a pass has written down can be read, so this does not happen.
    obtain ⟨trace, hdecode, _⟩ := (hr.reaches (.finished _) (by rw [ho]; rfl)).decode_of_finished
    cases ht.symm.trans hdecode
  | complete hresult =>
    obtain ⟨d, ho, hd, rfl, hdecode⟩ := hresult
    obtain rfl : outcome = .finished d := ho
    have hdecode' := hg.decode_eq hdecode
    cases d with
    | undefined => contradiction
    | _ =>
      simp only [Session.settle, Guise.pass, hheap, hdecode', hg.reveal_eq, Guise.reply,
        List.map_map]
      rfl

theorem drives_session {request : Request} {before : Session} {pass : Pass}
    (hd : s.Drives request before pass) :
    (g.session s).Drives request (g.session before) (g.pass pass) := by
  obtain rfl := hu.program_eq
  obtain rfl := hu.config_eq
  cases hd with
  | evaluated =>
    rw [← hg.start_eq]
    exact .evaluated
  | @resumed request c v p answer hr hgen hp ht hv hk =>
    have hparked : (g.session s).parked = some (g.parked p) := by simp [Guise.session, hp]
    rw [← hg.resume_eq]
    exact .resumed (s := g.session s) ((g.resumption?_session s request).trans hr) hgen hparked
      ht hv hk

theorem settle_session {request : Request} {before : Session} {pass : Pass}
    (hd : s.Drives request before pass) :
    (g.session before).settle (g.pass pass) = g.reply (before.settle pass) :=
  hg.settle_eq (hd.underway hu) (Session.settle_settled before pass) (hd.reached hu)

theorem evaluate_session : (g.session s).evaluate = g.reply s.evaluate := by
  have hstart : Pass.start (g.session s).config (g.session s).program s.answers =
      g.pass (Pass.start s.config s.program s.answers) := by
    rw [hu.config_eq, hu.program_eq, ← hg.start_eq, ← hu.config_eq, ← hu.program_eq]
    rfl
  exact (congrArg _ hstart).trans (hg.settle_session hu .evaluated)

theorem resume_session (c : Continuation) (v : Value) :
    (g.session s).resume c v = g.reply (s.resume c v) := by
  by_cases hgen : c.generation = s.generation
  · by_cases hticket : ∀ p, s.pending = some p → p.ticket ≠ c.ticket
    · rw [Session.resume_of_consumed hgen hticket, Session.resume_of_consumed (s := g.session s)
        hgen (g.pending_session s ▸ hticket)]
      rfl
    · push Not at hticket
      obtain ⟨p, hpending, ht⟩ := hticket
      obtain ⟨parked, hp, rfl⟩ := Option.map_eq_some_iff.mp hpending
      have hp' : (g.session s).parked = some (g.parked parked) := by simp [Guise.session, hp]
      by_cases hkind : v.kind? = some c.kind
      · obtain ⟨answer, rfl, hk⟩ := Value.of_kind?_eq_some hkind
        have hd : s.Drives (.resume c answer.value) _ _ := .resumed rfl hgen hp ht rfl hk
        rw [Session.resume_of_answer hgen hp ht hk, ← hg.settle_session hu hd,
          Session.resume_of_answer (s := g.session s) hgen hp' ht hk, hu.config_eq,
          ← hg.resume_eq, ← hu.config_eq]
        rfl
      · rw [Session.resume_of_mismatch hgen hp ht hkind,
          Session.resume_of_mismatch (s := g.session s) hgen hp' ht hkind]
        rfl
  · rw [Session.resume_of_stale hgen, Session.resume_of_stale (s := g.session s) hgen]
    rfl

theorem withQuestion_session {α : Type} {question : String} {act act' : Question → Reply α}
    (hact : ∀ q, act' q = g.reply (act q)) :
    (g.session s).withQuestion question act' = g.reply (s.withQuestion question act) := by
  have hquestion : (g.session s).program.question? question = s.program.question? question := by
    rw [hu.program_eq, ← hg.question?_eq question, ← hu.program_eq]
    rfl
  unfold Session.withQuestion
  rw [hquestion]
  cases s.program.question? question with
  | none => rfl
  | some q => exact hact q

theorem answerAhead_session (question : String) (v : Value) :
    (g.session s).answerAhead question v = g.reply (s.answerAhead question v) := by
  refine hg.withQuestion_session hu fun q => ?_
  have hanswers : (g.session s).answers = s.answers := rfl
  rw [hanswers]
  split
  · rfl
  · cases Session.checkKind question q.kind v <;> rfl

theorem provide_session (question : String) (v : Value) :
    (g.session s).provide question v = g.reply (s.provide question v) := by
  rw [Session.provide, g.pending_session, Session.provide]
  cases s.pending with
  | none => exact hg.answerAhead_session hu question v
  | some c =>
    dsimp only
    split
    · exact hg.resume_session hu c v
    · exact hg.answerAhead_session hu question v

theorem register_session (question listener : String) :
    (g.session s).register question listener = g.reply (s.register question listener) :=
  hg.withQuestion_session hu fun _ => rfl

theorem validate_session (question : String) :
    (g.session s).validate question = g.reply (s.validate question) := by
  refine hg.withQuestion_session hu fun _ => ?_
  simp only [hg.globals_session, Guise.reply, Session.reply, List.map_map]
  rfl

theorem invalidate_session (question : String) :
    (g.session s).invalidate question = g.reply (s.invalidate question) := by
  refine hg.withQuestion_session hu fun _ => ?_
  simp only [Guise.reply, Session.reply, List.map_map]
  rfl

/-- No request can tell the guise from the session. -/
theorem handle_session (request : Request) :
    (g.session s).handle request = g.reply (s.handle request) := by
  cases request with
  | evaluate => exact congrArg (Reply.map some) (hg.evaluate_session hu)
  | resume c v => exact congrArg (Reply.map some) (hg.resume_session hu c v)
  | provide question v => exact congrArg (Reply.map some) (hg.provide_session hu question v)
  | validate question =>
    exact congrArg (Reply.map fun _ => none) (hg.validate_session hu question)
  | invalidate question =>
    exact congrArg (Reply.map fun _ => none) (hg.invalidate_session hu question)
  | register question listener =>
    exact congrArg (Reply.map fun _ => none) (hg.register_session hu question listener)
  | onFinish | onUndefined => rfl

omit hu in
theorem history {log : List Exchange} (h : History program config log s) :
    History (g.program program) (g.config config) (log.map g.exchange) (g.session s) := by
  induction h with
  | new => exact .new
  | exchange request h ih =>
    have hnext := History.exchange request ih
    rw [hg.handle_session h.underway] at hnext
    exact hnext

end Guise.Fits

end Inquiry
