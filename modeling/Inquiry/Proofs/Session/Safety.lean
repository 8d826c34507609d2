import Inquiry.Derivation.Text
import Inquiry.Proofs.Derivation.Decoding
import Inquiry.Proofs.Pass.References
import Inquiry.Proofs.Session.Conference
import Inquiry.Proofs.Session.Driving
set_option autoImplicit false

namespace Inquiry

theorem Piece.mem_of_interleave {i : Nat} {texts : List String} {nodes : List Nat}
    (h : .node i ∈ interleave texts nodes) : i ∈ nodes := by
  induction texts generalizing nodes with
  | nil => simp [interleave] at h
  | cons s texts ih =>
    cases nodes with
    | nil =>
      simp only [interleave, List.mem_cons, reduceCtorEq, false_or] at h
      exact ih h
    | cons j nodes =>
      simp only [interleave, List.mem_cons, reduceCtorEq, Piece.node.injEq, false_or] at h
      rcases h with rfl | h
      · exact List.mem_cons_self
      · exact List.mem_cons_of_mem _ (ih h)

/-- The root is one of the nodes, and so is all that the nodes rest on and are written with. -/
structure Trace.Sound (t : Trace) : Prop where
  root : ∀ i, t.root = some i → i < t.nodes.size
  children : ∀ node ∈ t.nodes, ∀ i ∈ node.children, i < t.nodes.size
  pieces : ∀ node ∈ t.nodes, ∀ i, .node i ∈ node.pieces → i < t.nodes.size

theorem Trace.Arranged.sound {t : Trace} (h : t.Arranged) : t.Sound := by
  have hchildren : ∀ node ∈ t.nodes, ∀ i ∈ node.children, i < t.nodes.size := by
    intro node hm i hi
    obtain ⟨k, hk⟩ := Array.mem_iff_getElem?.mp hm
    have hlt := (Array.getElem?_eq_some_iff.mp hk).1
    exact Nat.lt_trans (h.child_lt k node hk i hi) hlt
  refine ⟨?_, hchildren, ?_⟩
  · intro i hi
    rw [h.root, Option.some.injEq] at hi
    have hpos := h.nonempty
    omega
  · exact fun node hm i hi => hchildren node hm i (Piece.mem_of_interleave hi)

theorem Tape.sound_of_decode {tape : Tape} {t : Trace} (h : tape.decode = .ok t) : t.Sound := by
  rcases decode_eq_ok_iff.mp h with ⟨_, rfl⟩ | ⟨derivation, _, rfl⟩
  · exact ⟨by simp, by simp, by simp⟩
  · exact derivation.arranged_trace.sound

/-- What can be seen of a pass refers to what is there. -/
def Globals.Sound (g : Globals) : Prop := ∀ h, g.heap = some h → ∃ parents, h.Sound parents

def Event.globals? : Event → Option Globals
  | .request _ _ g | .validate _ _ g | .invalidate _ _ g
  | .result _ _ _ g | .waiting _ _ g => some g
  | .undefined _ => none

def Event.Sound (event : Event) : Prop := ∀ g, event.globals? = some g → g.Sound

theorem Globals.Sound.empty : Globals.empty.Sound := by
  intro h he
  contradiction

theorem Pass.Reached.sound {captureTrace : Bool} {program : Program} {pass : Pass}
    (h : pass.Reached captureTrace program) (standing : Standing)
    (ho : pass.outcome.standing? = some standing) :
    Globals.Sound ⟨some pass.machine.heap⟩ := by
  intro heap hh
  cases hh
  obtain ⟨parents, hm, _⟩ := (h.reaches standing ho).sound
  exact ⟨parents, hm.heap⟩

variable {program : Program} {config : Config} {log : List Exchange} {s before : Session}
  {request : Request} {pass : Pass}

theorem Settled.sound {captureTrace : Bool} {reply : Reply Status} (h : Settled s pass reply)
    (hr : pass.Reached captureTrace program) (hs : Globals.Sound ⟨s.settled⟩) :
    Globals.Sound ⟨reply.session.settled⟩ ∧ ∀ event ∈ reply.events, event.Sound := by
  cases h with
  | failed | unheard | malformed => exact ⟨hs, by simp [Session.fail]⟩
  | parked ho hl =>
    have hg := hr.sound (.parked _) (by rw [ho]; rfl)
    refine ⟨hs, ?_⟩
    intro event he g hgl
    simp only [List.mem_append, List.mem_map] at he
    rcases he with ⟨_, _, rfl⟩ | ⟨_, _, rfl⟩
    · cases hgl
      exact hg
    · cases hgl
      exact hg
  | undefined ho =>
    refine ⟨hr.sound (.finished _) (by rw [ho]; rfl), ?_⟩
    intro event he g hgl
    obtain ⟨_, _, rfl⟩ := List.mem_map.mp he
    contradiction
  | complete hresult =>
    obtain ⟨d, ho, _⟩ := hresult
    have hg := hr.sound (.finished d) (by rw [ho]; rfl)
    refine ⟨hg, ?_⟩
    intro event he g hgl
    obtain ⟨_, _, rfl⟩ := List.mem_map.mp he
    cases hgl
    exact hg

namespace History

theorem settled_sound (h : History program config log s) : Globals.Sound ⟨s.settled⟩ := by
  induction h with
  | new => exact .empty
  | @exchange log s request h ih =>
    rcases h.drives_or_responds request with ⟨before, pass, hd⟩ | ⟨hr, _⟩
    · rw [hd.handle_eq]
      have hs : Globals.Sound ⟨before.settled⟩ := hd.settled_eq ▸ ih
      exact ((Session.settle_settled before pass).sound (hd.reached h.underway) hs).1
    · generalize s.handle request = reply at hr
      cases hr with
      | invalidated => exact .empty
      | _ => exact ih

theorem globals_sound (h : History program config log s) : s.globals.Sound := by
  cases hp : s.parked with
  | none =>
    simp only [Session.globals, hp]
    exact h.settled_sound
  | some p =>
    obtain ⟨question, ho, _⟩ := h.orderly.parked p hp
    simp only [Session.globals, hp]
    exact (h.underway.parked p hp).sound (.parked question) (by rw [ho]; rfl)

theorem events_sound (h : History program config log s) (request : Request) :
    ∀ event ∈ (s.handle request).events, event.Sound := by
  rcases h.drives_or_responds request with ⟨before, pass, hd⟩ | ⟨hr, _⟩
  · rw [hd.handle_eq]
    have hs : Globals.Sound ⟨before.settled⟩ := hd.settled_eq ▸ h.settled_sound
    exact ((Session.settle_settled before pass).sound (hd.reached h.underway) hs).2
  · generalize s.handle request = reply at hr
    intro event he g hg
    cases hr with
    | validated =>
      obtain ⟨_, _, rfl⟩ := List.mem_map.mp he
      cases hg
      exact h.globals_sound
    | invalidated =>
      obtain ⟨_, _, rfl⟩ := List.mem_map.mp he
      cases hg
      exact .empty
    | _ => simp [Session.reply] at he

end History

/-- Wherever a pass stands, all that its machine holds refers to what is on the heap, and every
frame lies in an earlier one, so that a search outward comes to an end; the operators on two numbers
are never asked for an equality; a tape is read as nodes that refer to each other. Whatever is asked
of any number of sessions, with continuations of one given to another: what is parked awaits an
answer, what can be looked at is sound, and a request sets no pass going, a new one, or the parked
one with a number or a boolean. -/
theorem Conference.references_sound (program : Program) :
    (∀ captureTrace standing m, Pass.Reaches captureTrace program standing m →
      ∃ parents, m.Sound parents ∧ standing.Known parents m.heap) ∧
    (∀ parents (h : Heap), h.Sound parents → ∀ slot id outer, Scope.Nests parents (id :: outer) →
      h.search parents slot (id.index + 1) id = some (h.lookup slot (id :: outer))) ∧
    (∀ arithmetic, (∀ op, op ≠ .eq → op ≠ .notEq →
        ∀ a b, arithmetic a b op = BinOp.onNumbers a b op) →
      ∀ op l r, BinOp.applyWith arithmetic op l r = op.apply l r) ∧
    (∀ (tape : Tape) (trace : Trace), tape.decode = .ok trace → trace.Sound) ∧
    ∀ (ι : Type) [DecidableEq ι] (config : ι → Config) log members,
      Conference program config log members → ∀ i,
      (∀ p, (members i).parked = some p → ∃ question, p.pass.outcome = .parked question ∧
        Pass.Reaches (config i).captureTrace program (.parked question) p.pass.machine) ∧
      (members i).globals.Sound ∧
      ∀ request, (∀ event ∈ ((members i).handle request).events, event.Sound) ∧
        ((members i).Responds request ((members i).handle request) ∨
        ∃ (before : Session) (pass : Pass),
          (members i).handle request = (before.settle pass).map some ∧
          pass.Reached (config i).captureTrace program ∧
          ((request = .evaluate ∧ pass = Pass.start (config i) program (members i).answers) ∨
          ∃ p question c answer, (members i).parked = some p ∧
            p.pass.outcome = .parked question ∧
            request.resumption? (members i) = some (c, Answer.value answer) ∧
            pass = p.pass.resume (config i) answer before.answers)) := by
  refine ⟨fun _ _ _ h => h.sound, fun _ _ hs _ _ _ hn => hs.search_eq hn (Nat.lt_succ_self _),
    fun _ h => BinOp.applyWith_eq h, fun _ _ h => Tape.sound_of_decode h, ?_⟩
  intro ι _ config log members hc i
  have h := hc.history i
  refine ⟨?_, h.globals_sound, fun request => ⟨h.events_sound request, ?_⟩⟩
  · intro p hp
    obtain ⟨question, ho, _⟩ := h.orderly.parked p hp
    exact ⟨question, ho, (h.underway.parked p hp).parked ho⟩
  · rcases h.drives_or_responds request with ⟨before, pass, hd⟩ | ⟨hr, _⟩
    · exact .inr ⟨before, pass, hd.handle_eq, hd.reached h.underway, h.start_or_resume hd⟩
    · exact .inl hr

/-- The member that asks whether it is a gift is given the continuation of another, which asks for
the price. Its pass goes on all the same, and fails for a number where a boolean was awaited. -/
theorem Conference.references_sound_delivery :
    let config : Bool → Config := fun _ => ⟨50, true, false⟩
    let price : Continuation := ⟨"price", .number, 1, 1⟩
    let one : Tape := ⟨#[.result (.number 1), .marker .literal], true⟩
    let arithmetic : Int64 → Int64 → BinOp → Except EvalError Datum := fun a b op =>
      if op = .eq ∨ op = .notEq then .error .divisionByZero else op.onNumbers a b
    Heap.initial.search #[none] ⟨0, "rate"⟩ 1 Heap.globalFrame = some none ∧
    BinOp.applyWith arithmetic .eq (.number 1) (.number 1) = .ok (.boolean true) ∧
    (one.decode = .ok ⟨some 0, #[⟨.literal (.number 1), []⟩]⟩ ∧
      Trace.Sound ⟨some 0, #[⟨.literal (.number 1), []⟩]⟩) ∧
    ∃ log members, Conference delivery config log members ∧
      (members true).globals.Sound ∧
      (∃ p question, (members true).parked = some p ∧ p.pass.outcome = .parked question ∧
        ∃ parents, p.pass.machine.Sound parents) ∧
      ((members true).handle (.resume price (.number 5))).result =
        .error (.typeMismatch (.condition .predicate .number)) ∧
      ∃ (before : Session) (pass : Pass), (members true).handle (.resume price (.number 5)) =
        (before.settle pass).map some ∧ pass.Reached true delivery := by
  intro config price one arithmetic
  obtain ⟨hturns, hsearch, hdead, htraces, hsessions⟩ := Conference.references_sound delivery
  have hglobal := hsearch #[none] Heap.initial .initial ⟨0, "rate"⟩ Heap.globalFrame []
    (.outermost rfl)
  have hequal : BinOp.applyWith arithmetic .eq (.number 1) (.number 1) = .ok (.boolean true) := by
    apply hdead
    intro op he hn a b
    simp [arithmetic, he, hn]
  have hdecode : one.decode = .ok ⟨some 0, #[⟨.literal (.number 1), []⟩]⟩ := by decide
  have h₁ : Conference delivery config _ _ :=
    .exchange false (.provide "gift" (.boolean false)) .new trivial
  have h₂ := Conference.exchange false .evaluate h₁ trivial
  have h₃ := Conference.exchange true .evaluate h₂ trivial
  obtain ⟨hparked, hglobals, hrequests⟩ := hsessions Bool config _ _ h₃ true
  obtain ⟨p, hp⟩ := (h₃.history true).orderly.waiting "gift" (by decide +kernel)
  obtain ⟨question, ho, hreaches⟩ := hparked p hp
  obtain ⟨parents, hm, _⟩ := hturns _ _ _ hreaches
  refine ⟨hglobal, hequal, ⟨hdecode, htraces _ _ hdecode⟩, _, _, h₃, hglobals,
    ⟨p, question, hp, ho, parents, hm⟩, by decide +kernel, ?_⟩
  rcases (hrequests (.resume price (.number 5))).2 with hr | ⟨before, pass, hhandle, hreached, _⟩
  · have hfail : ((Session.new delivery (config true)).handle .evaluate |>.session.handle
        (.resume price (.number 5))).result =
          .error (.typeMismatch (.condition .predicate .number)) := by decide +kernel
    cases hr.refuses hfail
  · exact ⟨before, pass, hhandle, hreached⟩

end Inquiry
