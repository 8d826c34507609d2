import Inquiry.Proofs.Pass.Recording
import Inquiry.Proofs.Session.History
set_option autoImplicit false

namespace Inquiry

/-- The session still has its program and settings, and what is parked is a pass over them. -/
structure Session.Underway (program : Program) (config : Config) (s : Session) : Prop where
  program_eq : s.program = program
  config_eq : s.config = config
  parked : ∀ p, s.parked = some p → p.pass.Reached config.captureTrace program

/-- No trace is malformed, neither one that should have been delivered nor one that was. -/
structure Reply.Delivers {α : Type} (captureTrace : Bool) (reply : Reply α) : Prop where
  result : ∀ error, reply.result ≠ .error (.malformedTrace error)
  events : ∀ event ∈ reply.events, ∀ v trace, event.result? = some (v, trace) →
    trace.Recorded captureTrace

variable {program : Program} {config : Config} {s : Session}

theorem Reply.Delivers.map_some {α : Type} {captureTrace : Bool} {reply : Reply α}
    (h : reply.Delivers captureTrace) : (reply.map some).Delivers captureTrace := by
  refine ⟨?_, h.events⟩
  intro error he
  exact h.result error (map_eq_error he)

theorem Settled.delivers {pass : Pass} {reply : Reply Status} {captureTrace : Bool}
    (h : Settled s pass reply) (hr : pass.Reached captureTrace program) :
    reply.Delivers captureTrace := by
  cases h with
  | @failed e ho =>
    refine ⟨?_, by simp [Session.fail]⟩
    intro error he
    cases he
    simpa [EvalError.ofEvaluation] using hr.failed _ ho
  | unheard ho hl hq => exact ⟨by simp [Session.fail], by simp [Session.fail]⟩
  | parked ho hl =>
    refine ⟨by simp, ?_⟩
    intro event he v trace hv
    simp only [List.mem_append, List.mem_map] at he
    rcases he with ⟨_, _, rfl⟩ | ⟨_, _, rfl⟩ <;> contradiction
  | undefined ho =>
    refine ⟨by simp, ?_⟩
    intro event he v trace hv
    obtain ⟨_, _, rfl⟩ := List.mem_map.mp he
    contradiction
  | malformed ho hd ht =>
    have hreaches := hr.reaches (.finished _) (by rw [ho]; rfl)
    obtain ⟨trace, hdecode, _⟩ := hreaches.decode_of_finished
    rw [hdecode] at ht
    contradiction
  | complete hresult =>
    refine ⟨by simp, ?_⟩
    intro event he v trace hv
    obtain ⟨d, ho, _, _, hdecode⟩ := hresult
    have hreaches := hr.reaches (.finished d) (by rw [ho]; rfl)
    obtain ⟨trace', hdecode', hrecorded⟩ := hreaches.decode_of_finished
    obtain ⟨_, _, rfl⟩ := List.mem_map.mp he
    rw [hdecode, Except.ok.injEq] at hdecode'
    simp only [Event.result?, Option.some.injEq, Prod.mk.injEq] at hv
    rw [← hv.2, hdecode']
    exact hrecorded

namespace Session.Underway

theorem settled {pass : Pass} {reply : Reply Status} (h : s.Underway program config)
    (hs : Settled s pass reply) (hr : pass.Reached config.captureTrace program) :
    reply.session.Underway program config := by
  cases hs with
  | parked ho hl =>
    refine ⟨h.program_eq, h.config_eq, ?_⟩
    intro p hp
    cases hp
    exact hr
  | _ => exact ⟨h.program_eq, h.config_eq, h.parked⟩

theorem exchange (h : s.Underway program config) (request : Request) :
    (s.handle request).session.Underway program config ∧
      (s.handle request).Delivers config.captureTrace := by
  have hr := Session.handle_reaction s request
  generalize s.handle request = reply at hr
  cases hr with
  | evaluated hs =>
    have hu : s.discardParked.Underway program config :=
      ⟨h.program_eq, h.config_eq, by simp [Session.discardParked]⟩
    have hreached := Pass.reached_start s.config s.program s.answers
    rw [h.program_eq, h.config_eq] at hreached hs
    exact ⟨hu.settled hs hreached, (hs.delivers hreached).map_some⟩
  | @resumed _ c v parked answer reply hr hg hp ht hk hs =>
    have hu : (s.answered c.question answer).Underway program config :=
      ⟨h.program_eq, h.config_eq, by simp [Session.answered]⟩
    have hreached := (h.parked parked hp).resume s.config answer
      (s.answers.insert c.question answer)
    exact ⟨hu.settled hs hreached, (hs.delivers hreached).map_some⟩
  | mismatched _ _ _ _ hk | aheadMismatched _ _ _ hk =>
    rw [eq_of_checkKind hk]
    exact ⟨h, by simp [Session.reply], by simp [Session.reply]⟩
  | invalidated hq =>
    exact ⟨⟨h.program_eq, h.config_eq, by simp [Session.discardParked]⟩, by simp,
      by simp [Event.result?]⟩
  | validated hq => exact ⟨h, by simp, by simp [Event.result?]⟩
  | _ =>
    exact ⟨⟨h.program_eq, h.config_eq, h.parked⟩, by simp [Session.reply], by simp [Session.reply]⟩

end Session.Underway

theorem History.underway {log : List Exchange} (h : History program config log s) :
    s.Underway program config := by
  induction h with
  | new => exact ⟨rfl, rfl, by simp [Session.new]⟩
  | exchange request _ ih => exact (ih.exchange request).1

/-- What the tape of a pass holds reads as a forest with as many trees as the tasks and the value
at hand ask for, in the end as the derivation of the result. So no request fails over a trace, and
the traces that are delivered are derivations, or nothing if none was to be captured. -/
theorem History.tape_decodes (program : Program) (config : Config) :
    (∀ standing m, Pass.Reaches true program standing m → ∃ trees : List Derivation,
      m.tape.tokens.toList = trees.flatMap Derivation.tokens ∧
      Forest.read ⟨#[], []⟩ [] m.tape.tokens.toList = .ok (Forest.of trees) ∧
      (Forest.of trees).roots.length = standing.held + Task.heldAll m.stack ∧
      ∀ d, standing = .finished d → ∃ t, trees = [t] ∧ m.tape.decode = .ok t.trace) ∧
    (∀ standing m, Pass.Reaches false program standing m →
      m.tape.tokens = #[] ∧ m.tape.decode = .ok ⟨none, #[]⟩) ∧
    ∀ log s, History program config log s →
      (∀ p, s.parked = some p → ∃ question, p.pass.outcome = .parked question ∧
        Pass.Reaches config.captureTrace program (.parked question) p.pass.machine) ∧
      ∀ request, (∀ error, (s.handle request).result ≠ .error (.malformedTrace error)) ∧
        ∀ event ∈ (s.handle request).events, ∀ v trace, event.result? = some (v, trace) →
          trace.Recorded config.captureTrace := by
  refine ⟨?_, ?_, ?_⟩
  · intro standing m h
    obtain ⟨_, trees, htokens, hlength⟩ := h.holds
    refine ⟨trees, htokens, Forest.read_eq_ok_iff.mpr ⟨trees, htokens, rfl⟩, ?_, ?_⟩
    · rw [Forest.length_roots_of, hlength, Machine.held]
    · rintro d rfl
      obtain ⟨t, rfl⟩ := List.length_eq_one_iff.mp (hlength.trans h.held_of_finished)
      exact ⟨t, rfl, Derivation.decode_of_tokens (by simpa using htokens)⟩
  · intro standing m h
    rw [h.tape_eq_empty]
    exact ⟨rfl, rfl⟩
  · intro log s h
    refine ⟨?_, fun request => ?_⟩
    · intro p hp
      obtain ⟨question, ho, _⟩ := h.orderly.parked p hp
      exact ⟨question, ho, (h.underway.parked p hp).parked ho⟩
    · have hd := (h.underway.exchange request).2
      exact ⟨hd.result, hd.events⟩

theorem History.tape_decodes_invoice :
    let config : Config := ⟨50, true, false⟩
    let asked := ((Session.new Pass.invoice config).handle .evaluate).session
    let s := (asked.handle (.provide "ordered" (.number 2))).session
    (∃ log, History Pass.invoice config log s) ∧
      (∃ p, s.parked = some p ∧ Task.heldAll p.pass.machine.stack = 2 ∧
        ∃ trees : List Derivation, trees.length = 2 ∧
          p.pass.machine.tape.tokens.toList = trees.flatMap Derivation.tokens) ∧
      ∀ error, (s.handle (.provide "price" (.number 5))).result ≠
        .error (.malformedTrace error) := by
  intro config asked s
  have h : History Pass.invoice config _ s := .exchange _ (.exchange .evaluate .new)
  obtain ⟨hforest, _, hsessions⟩ := History.tape_decodes Pass.invoice config
  obtain ⟨hparked, hreplies⟩ := hsessions _ s h
  refine ⟨⟨_, h⟩, ?_, (hreplies _).1⟩
  have hheld : (s.parked.map fun p => Task.heldAll p.pass.machine.stack) = some 2 := by
    decide +kernel
  obtain ⟨p, hp, hsum⟩ := Option.map_eq_some_iff.mp hheld
  obtain ⟨question, _, hreaches⟩ := hparked p hp
  obtain ⟨trees, htokens, _, hlength, _⟩ := hforest _ _ hreaches
  refine ⟨p, hp, hsum, trees, ?_, htokens⟩
  rw [← Forest.length_roots_of, hlength, hsum]
  rfl

end Inquiry
