import Inquiry.Proofs.Recasting.Machine
import Inquiry.Proofs.Session.Guise
set_option autoImplicit false

/-!
Sessions that capture no traces. No turn reads what was written down before it, so a pass takes the
same turns whether or not anything is written, and a session differs in the traces it delivers and
in nothing else.
-/

namespace Inquiry

/-- A machine that writes nothing down and has written nothing down. -/
def Machine.muted (m : Machine) : Machine := { m with tape := .empty false }

def Pass.muted (p : Pass) : Pass := { p with machine := p.machine.muted }

def Session.withoutTrace (s : Session) : Session :=
  { s with
    config := s.config.withoutTrace
    parked := s.parked.map fun p => { p with pass := p.pass.muted } }

def Event.withoutTrace : Event → Event
  | .result listener v _ globals => .result listener v ⟨none, #[]⟩ globals
  | event => event

def Reply.withoutTrace {α : Type} (reply : Reply α) : Reply α :=
  ⟨reply.session.withoutTrace, reply.result, reply.events.map Event.withoutTrace⟩

def Exchange.withoutTrace (e : Exchange) : Exchange := ⟨e.request, e.reply.withoutTrace⟩

namespace Recasting

def muting : Recasting := ⟨id, .name, fun _ => .empty false⟩

theorem faithful_muting : muting.Faithful := ⟨Iff.rfl, fun _ => rfl, fun _ _ => rfl⟩

theorem recast_muting (e : Expr) : e.recast muting = e :=
  Expr.recast_eq_self (fun _ => rfl) (fun _ => rfl) e

theorem keepsFunctions_muting (bindings : List (Slot × Expr)) : muting.KeepsFunctions bindings :=
  fun binding _ => congrArg Expr.isFunction (recast_muting binding.2)

theorem suits_muting (e : Expr) : e.Suits muting := by
  cases e with
  | name slot => rfl
  | block body => exact keepsFunctions_muting _
  | _ => trivial

end Recasting

open Recasting

theorem Stmt.recast_muting (stmt : Stmt) : stmt.recast muting = stmt := by
  cases stmt with
  | bind slot value => exact congrArg (Stmt.bind slot) (Recasting.recast_muting value)
  | expr value => exact congrArg Stmt.expr (Recasting.recast_muting value)

theorem Program.recast_muting (program : Program) : program.recast muting = program :=
  congrArg Program.mk (map_eq_self fun stmt _ => stmt.recast_muting)

theorem Heap.recast_muting (h : Heap) : h.recast muting = h := by
  have hframe : Frame.recast muting = id := funext fun frame => List.map_id frame
  have hthunk : Thunk.recast muting = id := funext fun thunk =>
    congrArg (fun e => { thunk with expr := e }) (Recasting.recast_muting thunk.expr)
  have hclosure : Closure.recast muting = id := by
    funext closure
    have hparams : closure.params.map muting.slot = closure.params := List.map_id _
    rw [Closure.recast, hparams, Recasting.recast_muting]
    rfl
  simp only [Heap.recast, hframe, hthunk, hclosure, Array.map_id_fun, id_eq]

theorem Task.recast_muting (task : Task) : task.recast muting = task := by
  cases task <;> simp only [Task.recast, Recasting.recast_muting]
  exact congrArg (Task.callee · _) (map_eq_self fun e _ => Recasting.recast_muting e)

theorem Machine.recast_muting (m : Machine) : m.recast muting = m.muted := by
  have hstack : m.stack.map (Task.recast muting) = m.stack :=
    map_eq_self fun task _ => task.recast_muting
  rw [Machine.recast, Heap.recast_muting, hstack]
  rfl

def Guise.muted : Guise where
  program := id
  config := Config.withoutTrace
  machine := Machine.muted
  heap := id
  trace _ := ⟨none, #[]⟩

variable {program : Program} {config : Config} {log : List Exchange} {s : Session}

theorem Pass.recast_muting (p : Pass) : p.recast muting = p.muted :=
  congrArg (fun m => { p with machine := m }) p.machine.recast_muting

theorem Guise.fits_muted (program : Program) (config : Config) :
    Guise.muted.Fits program config where
  questions_eq := rfl
  requireHandlers_eq := rfl
  start_eq answers := by
    have hstart : Pass.start config.withoutTrace (program.recast muting) answers =
        (Pass.start config program answers).recast muting :=
      Pass.recast_start faithful_muting rfl rfl (keepsFunctions_muting _)
        fun _ _ _ _ c _ => Control.suits_of suits_muting c
    rwa [Program.recast_muting, Pass.recast_muting] at hstart
  resume_eq pass answer answers := by
    have hresume : (pass.recast muting).resume config.withoutTrace answer answers =
        (pass.resume config answer answers).recast muting :=
      Pass.recast_resume faithful_muting answer pass rfl suits_muting
    rwa [Pass.recast_muting, Pass.recast_muting] at hresume
  heap_eq _ := rfl
  reveal_eq _ _ := rfl
  decode_eq _ := rfl

theorem Guise.session_muted (s : Session) : Guise.muted.session s = s.withoutTrace := by
  simp only [Guise.session, Session.withoutTrace, Guise.muted, id_eq, Option.map_id_fun]
  rfl

theorem Guise.globals_muted (globals : Globals) : Guise.muted.globals globals = globals :=
  congrArg Globals.mk (Option.map_id_apply)

theorem Guise.event_muted (event : Event) : Guise.muted.event event = event.withoutTrace := by
  cases event <;> simp only [Guise.event, Guise.globals_muted] <;> rfl

theorem Guise.reply_muted {α : Type} (reply : Reply α) :
    Guise.muted.reply reply = reply.withoutTrace := by
  rw [Guise.reply, Guise.session_muted, funext Guise.event_muted]
  rfl

theorem Guise.exchange_muted (e : Exchange) : Guise.muted.exchange e = e.withoutTrace :=
  congrArg (Exchange.mk e.request) (Guise.reply_muted e.reply)

/-- Tracing is transparent. A session that captures no traces has the same dialogue with its host,
whatever is asked of it: the same results and errors, the same events apart from the traces in them,
the same answers; and each pass that it sets going takes as many turns. -/
theorem History.tracing_transparent (h : History program config log s) :
    History program config.withoutTrace (log.map Exchange.withoutTrace) s.withoutTrace ∧
    ∀ request,
      s.withoutTrace.handle request = (s.handle request).withoutTrace ∧
      ∀ before pass, s.Drives request before pass →
        s.withoutTrace.Drives request before.withoutTrace pass.muted ∧
          pass.muted.outcome = pass.outcome ∧ pass.muted.turns = pass.turns := by
  have hfits := Guise.fits_muted program config
  refine ⟨?_, fun request => ⟨?_, fun before pass hd => ⟨?_, rfl, rfl⟩⟩⟩
  · have hhistory := hfits.history h
    rwa [funext Guise.exchange_muted, Guise.session_muted] at hhistory
  · have hhandle := hfits.handle_session h.underway request
    rwa [Guise.session_muted, Guise.reply_muted] at hhandle
  · have hdrives := hfits.drives_session h.underway hd
    rwa [Guise.session_muted, Guise.session_muted] at hdrives

theorem History.tracing_transparent_invoice :
    let config : Config := ⟨50, true, false⟩
    let ready := ((Session.new Pass.invoice config).handle (.onFinish "ledger")).session
    let asked := (ready.handle .evaluate).session
    let told := (asked.handle (.provide "ordered" (.number 2))).session
    let last : Request := .provide "price" (.number 5)
    let traced := told.handle last
    let silent := told.withoutTrace.handle last
    (∃ log, History Pass.invoice config log told ∧
        History Pass.invoice config.withoutTrace (log.map Exchange.withoutTrace)
          told.withoutTrace) ∧
      (traced.events.findSome? Event.result?).map (fun r => r.2.nodes.size) = some 9 ∧
      silent.result = traced.result ∧
      silent.result = .ok (some (.complete (.record (.cons "total" (.number 15) .nil)))) ∧
      (silent.events.findSome? Event.result?).map (fun r => r.2.nodes.size) = some 0 ∧
      silent.session.answers = traced.session.answers := by
  intro config ready asked told last traced silent
  have h : History Pass.invoice config _ told :=
    .exchange (.provide "ordered" (.number 2)) (.exchange .evaluate (.exchange _ .new))
  obtain ⟨hsilent, hrequests⟩ := History.tracing_transparent h
  have heq : silent = traced.withoutTrace := (hrequests last).1
  have hkeeps (reply : Reply (Option Status)) : reply.withoutTrace.result = reply.result ∧
      reply.withoutTrace.session.answers = reply.session.answers := ⟨rfl, rfl⟩
  obtain ⟨hresult, hanswers⟩ := hkeeps traced
  rw [heq, hresult, hanswers]
  exact ⟨⟨_, h, hsilent⟩, by decide +kernel, rfl, by decide +kernel, by decide +kernel, rfl⟩

end Inquiry
