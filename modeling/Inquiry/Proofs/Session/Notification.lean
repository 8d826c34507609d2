import Inquiry.Proofs.Session.Driving
set_option autoImplicit false

namespace Inquiry

open Dialogue

/-- What is told of a pass that was set going in `s`, by how it stopped. -/
def Reply.Announces (s : Session) (reply : Reply (Option Status)) : Prop :=
  let after := reply.session
  match reply.result with
  | .ok (some (.complete v)) => ∃ trace,
      reply.events = s.finisher.toList.map fun name => .result name v trace after.globals
  | .ok (some .undefined) => reply.events = s.undefinedListener.toList.map .undefined
  | .ok (some (.waiting question)) => ∃ c, after.pending = some c ∧ c.question = question ∧
      reply.events =
        ((s.listener? question).toList.map fun name => .request name c after.globals) ++
        s.finisher.toList.map fun name => .waiting name after.unresolved after.globals
  | .error _ => reply.events = []
  | _ => False

/-- What is told without any pass: that an answer was confirmed or withdrawn, if it was. -/
def Reply.Replies (s : Session) (request : Request) (reply : Reply (Option Status)) : Prop :=
  let after := reply.session
  match request, reply.result with
  | .validate question, .ok _ => reply.events =
      (s.listener? question).toList.map fun name => .validate name question after.globals
  | .invalidate question, .ok _ => reply.events =
      (s.listener? question).toList.map fun name => .invalidate name question after.globals
  | _, _ => reply.events = []

variable {program : Program} {config : Config} {log : List Exchange} {s : Session}
  {request : Request}

theorem Settled.announces {pass : Pass} {reply : Reply Status} (h : Settled s pass reply)
    (hp : s.parked = none) : (reply.map some).Announces s := by
  cases h with
  | failed | unheard | malformed => exact rfl
  | parked ho hl => exact ⟨_, rfl, rfl, rfl⟩
  | undefined ho => exact rfl
  | @complete v trace hr =>
    have hglobals : Session.globals { s with
        settled := some pass.machine.heap, status := .complete v } =
        ⟨some pass.machine.heap⟩ := by simp [Session.globals, hp]
    refine ⟨trace, ?_⟩
    simp only [Reply.map, hglobals]

theorem Session.Responds.replies {reply : Reply (Option Status)} (h : s.Responds request reply) :
    reply.Replies s request := by
  cases h with
  | @refused request e he => cases request <;> exact rfl
  | _ => exact rfl

/-- A request that sets a pass going tells how that pass stopped, and nothing if it failed; any
other request tells nothing, unless it confirmed or withdrew an answer. The names that come with an
event are those that the session has once the request is granted. -/
theorem History.events_as_outcome (h : History program config log s) (request : Request) :
    (drives log ⟨request, s.handle request⟩ = true → (s.handle request).Announces s) ∧
    (drives log ⟨request, s.handle request⟩ = false → (s.handle request).Replies s request) := by
  rcases h.drives_or_responds request with ⟨before, pass, hd⟩ | ⟨hr, hdrives⟩
  · refine ⟨fun _ => ?_, by simp [h.drives_eq_true hd]⟩
    have ha := (Session.settle_settled before pass).announces hd.parked_eq
    simp only [Reply.Announces, hd.finisher_eq, hd.undefinedListener_eq, hd.listener?_eq] at ha
    rw [hd.handle_eq]
    exact ha
  · exact ⟨by simp [hdrives], fun _ => hr.replies⟩

theorem History.events_as_outcome_invoice :
    let config : Config := ⟨50, true, false⟩
    let v : Value := .record (.cons "total" (.number 15) .nil)
    let heard := ((Session.new Pass.invoice config).handle (.register "ordered" "desk")).session
    let ready := (heard.handle (.onFinish "ledger")).session
    let asked := ready.handle .evaluate
    let parked := asked.session.handle (.provide "ordered" (.number 2))
    let done := parked.session.handle (.provide "price" (.number 5))
    (∃ log, History Pass.invoice config log parked.session) ∧
      (∃ c, asked.session.pending = some c ∧ c.question = "ordered" ∧ asked.events =
        [.request "desk" c asked.session.globals,
          .waiting "ledger" asked.session.unresolved asked.session.globals]) ∧
      (∃ c, parked.session.pending = some c ∧ c.question = "price" ∧ parked.events =
        [.waiting "ledger" parked.session.unresolved parked.session.globals]) ∧
      ∃ trace, done.events = [.result "ledger" v trace done.session.globals] := by
  intro config v heard ready asked parked done
  have hwaiting {log : List Exchange} {s : Session} {listener : Option String} {question : String}
      (h : History Pass.invoice config log s) (request : Request)
      (hd : drives log ⟨request, s.handle request⟩ = true)
      (hr : (s.handle request).result = .ok (some (.waiting question)))
      (hl : s.listener? question = listener) (hf : s.finisher = some "ledger") :
      let reply := s.handle request
      ∃ c, reply.session.pending = some c ∧ c.question = question ∧ reply.events =
        (listener.toList.map fun name => .request name c reply.session.globals) ++
          [.waiting "ledger" reply.session.unresolved reply.session.globals] := by
    have ha := (History.events_as_outcome h request).1 hd
    simpa only [Reply.Announces, hr, hl, hf, Option.toList_some, List.map_cons, List.map_nil]
      using ha
  have hcomplete {log : List Exchange} {s : Session} (h : History Pass.invoice config log s)
      (request : Request) (hd : drives log ⟨request, s.handle request⟩ = true)
      (hr : (s.handle request).result = .ok (some (.complete v)))
      (hf : s.finisher = some "ledger") : ∃ trace, (s.handle request).events =
        [.result "ledger" v trace (s.handle request).session.globals] := by
    have ha := (History.events_as_outcome h request).1 hd
    simpa only [Reply.Announces, hr, hf, Option.toList_some, List.map_cons, List.map_nil] using ha
  have h₀ : History Pass.invoice config _ ready :=
    .exchange (.onFinish "ledger") (.exchange (.register "ordered" "desk") .new)
  have h₁ : History Pass.invoice config _ asked.session := .exchange .evaluate h₀
  have h₂ : History Pass.invoice config _ parked.session :=
    .exchange (.provide "ordered" (.number 2)) h₁
  exact ⟨⟨_, h₂⟩,
    hwaiting h₀ .evaluate rfl (by decide +kernel) (by decide +kernel : _ = some "desk") rfl,
    hwaiting h₁ (.provide "ordered" (.number 2)) (by decide +kernel) (by decide +kernel)
      (by decide +kernel : _ = none) (by decide +kernel),
    hcomplete h₂ (.provide "price" (.number 5)) (by decide +kernel) (by decide +kernel)
      (by decide +kernel)⟩

end Inquiry
