import Mathlib.Algebra.Order.BigOperators.Group.List
import Mathlib.Algebra.Order.Group.Nat
import Inquiry.Proofs.Pass.Gas
import Inquiry.Proofs.Recasting.Globals
import Inquiry.Proofs.Recasting.Machine
import Inquiry.Proofs.Session.Scoping
import Inquiry.Proofs.Session.Guise
set_option autoImplicit false

namespace Inquiry

def Recasting.renumbering (f : Nat → Nat) : Recasting :=
  let slot (s : Slot) : Slot := ⟨f s.id, s.name⟩
  ⟨slot, fun s => .name (slot s), id⟩

def Program.renumber (f : Nat → Nat) (p : Program) : Program := p.recast (.renumbering f)

def Program.slotIds (p : Program) : List Nat :=
  (Expr.block p.body).within.flatMap fun e => (e.declared ++ e.named).map Slot.id

/-- Whether the host sees the same of two passes. -/
structure Pass.Alike (pass other : Pass) : Prop where
  outcome_eq : other.outcome = pass.outcome
  turns_eq : other.turns = pass.turns
  tape_eq : other.machine.tape = pass.machine.tape
  reveal_eq (d : Datum) : other.machine.heap.reveal d = pass.machine.heap.reveal d

/-- Whether a listener is told the same, global names apart. -/
inductive Event.Alike : Event → Event → Prop where
  | request {listener : String} {c : Continuation} {globals other : Globals}
      (hg : globals.Alike other) :
      Alike (.request listener c globals) (.request listener c other)
  | validate {listener question : String} {globals other : Globals} (hg : globals.Alike other) :
      Alike (.validate listener question globals) (.validate listener question other)
  | invalidate {listener question : String} {globals other : Globals} (hg : globals.Alike other) :
      Alike (.invalidate listener question globals) (.invalidate listener question other)
  | result {listener : String} {v : Value} {trace : Trace} {globals other : Globals}
      (hg : globals.Alike other) :
      Alike (.result listener v trace globals) (.result listener v trace other)
  | waiting {listener : String} {unresolved : List Question} {globals other : Globals}
      (hg : globals.Alike other) :
      Alike (.waiting listener unresolved globals) (.waiting listener unresolved other)
  | undefined {listener : String} : Alike (.undefined listener) (.undefined listener)

structure Session.Alike (s other : Session) : Prop where
  status_eq : other.status = s.status
  answers_eq : other.answers = s.answers
  pending_eq : other.pending = s.pending
  unresolved_eq : other.unresolved = s.unresolved
  globals : s.globals.Alike other.globals

structure Exchange.Alike (e other : Exchange) : Prop where
  request_eq : other.request = e.request
  result_eq : other.reply.result = e.reply.result
  events : List.Forall₂ Event.Alike e.reply.events other.reply.events

namespace Recasting

variable {f : Nat → Nat}

theorem faithful_renumbering (hf : Function.Injective f) : (renumbering f).Faithful :=
  ⟨hf.eq_iff, fun _ => rfl, fun _ _ => rfl⟩

theorem keepsFunctions_renumbering (bindings : List (Slot × Expr)) :
    (renumbering f).KeepsFunctions bindings := by
  rintro ⟨slot, value⟩ _
  cases value <;> rfl

theorem suits_renumbering (e : Expr) : e.Suits (renumbering f) := by
  cases e with
  | name slot => rfl
  | block body => exact keepsFunctions_renumbering _
  | _ => trivial

theorem mentions_renumbering (e : Expr) : (e.recast (renumbering f)).mentions = e.mentions := by
  induction e using Expr.partsInduction with
  | h e ih =>
    cases e with
    | record fields =>
      rw [Expr.recast_record, Expr.mentions, Expr.mentions, Field.mentionsAll_eq,
        Field.mentionsAll_eq, List.flatMap_map]
      refine List.flatMap_congr fun field hm => ?_
      have hvalue := ih field.value (List.mem_map_of_mem hm)
      cases field
      exact hvalue
    | block body =>
      rw [Expr.recast_block, Expr.mentions, Expr.mentions, Stmt.mentionsAll_eq,
        Stmt.mentionsAll_eq, List.flatMap_map]
      refine List.flatMap_congr fun stmt hm => ?_
      have hpart := ih stmt.value (List.mem_map_of_mem hm)
      cases stmt <;> exact hpart
    | call callee args =>
      obtain ⟨hcallee, hargs⟩ := List.forall_mem_cons.mp ih
      rw [Expr.recast_call, Expr.mentions, Expr.mentions, Expr.mentionsAll_eq,
        Expr.mentionsAll_eq, List.flatMap_map, hcallee, List.flatMap_congr hargs]
    | function name params body => exact ih body List.mem_cons_self
    | _ => simp_all [Expr.recast, Expr.mentions, Expr.parts, Expr.operands, renumbering]

end Recasting

open Recasting

section

variable {f : Nat → Nat}

/-- Numbers that stay apart for the slots of a program, and for all others as well. -/
theorem exists_injective_extension {ids : List Nat}
    (hf : ∀ i ∈ ids, ∀ j ∈ ids, f i = f j → i = j) :
    ∃ g : Nat → Nat, Function.Injective g ∧ ∀ i ∈ ids, g i = f i := by
  -- All others are moved above the numbers that are taken.
  let bound := (ids.map f).sum + 1
  have hbound : ∀ i ∈ ids, f i < bound := fun i hi =>
    Nat.lt_succ_of_le (List.single_le_sum (by simp) _ (List.mem_map_of_mem hi))
  refine ⟨fun i => if i ∈ ids then f i else i + bound, fun i j hij => ?_, fun i hi => if_pos hi⟩
  by_cases hi : i ∈ ids <;> by_cases hj : j ∈ ids <;> simp only [hi, hj, if_true, if_false] at hij
  · exact hf i hi j hj hij
  · have := hbound i hi
    omega
  · have := hbound j hj
    omega
  · omega

theorem Program.renumber_congr {program : Program} {g : Nat → Nat}
    (hg : ∀ i ∈ program.slotIds, g i = f i) : program.renumber g = program.renumber f := by
  have hblock : (Expr.block program.body).recast (.renumbering g) =
      (Expr.block program.body).recast (.renumbering f) := by
    refine Expr.recast_congr fun e he => ?_
    have hslots : ∀ slot ∈ e.declared ++ e.named, g slot.id = f slot.id := fun slot hs =>
      hg _ (List.mem_flatMap.mpr ⟨e, he, List.mem_map_of_mem hs⟩)
    constructor
    · intro slot hs
      simp only [renumbering, hslots slot (List.mem_append_left _ hs)]
    · intro slot hs
      simp only [renumbering, hslots slot (List.mem_append_right _ hs)]
  rw [Expr.recast_block, Expr.recast_block] at hblock
  exact congrArg Program.mk (Expr.block.inj hblock)

def Guise.renumbered (f : Nat → Nat) : Guise where
  program := Program.renumber f
  config := id
  machine := Machine.recast (.renumbering f)
  heap := Heap.recast (.renumbering f)
  trace := id

variable (hf : Function.Injective f) {program : Program} {config : Config}
include hf

theorem Guise.fits_renumbered (program : Program) (config : Config) :
    (Guise.renumbered f).Fits program config where
  questions_eq := by
    have hmentions := mentions_renumbering (f := f) (.block program.body)
    rw [Expr.recast_block] at hmentions
    exact congrArg (distinctBy Question.text) hmentions
  requireHandlers_eq := rfl
  start_eq answers := Pass.recast_start (faithful_renumbering hf) rfl rfl
    (keepsFunctions_renumbering _) fun _ _ _ _ c _ => Control.suits_of suits_renumbering c
  resume_eq pass answer answers :=
    Pass.recast_resume (faithful_renumbering hf) answer pass rfl suits_renumbering
  heap_eq _ := rfl
  reveal_eq h d := Heap.reveal_recast _ h d
  decode_eq h := h

theorem Guise.event_alike (event : Event) : event.Alike ((Guise.renumbered f).event event) := by
  cases event <;> constructor <;> exact Globals.alike_recast (faithful_renumbering hf) _

theorem Pass.alike_renumbered (config : Config) (program : Program) (first : Answers)
    (later : List Resumption) :
    (after config program first later).Alike
      (after config (program.renumber f) first later) := by
  have hg := Guise.fits_renumbered hf program config
  have hafter : after config (program.renumber f) first later =
      (Guise.renumbered f).pass (after config program first later) := by
    induction later with
    | nil => exact hg.start_eq first
    | cons r earlier ih =>
      rw [after, ih]
      exact hg.resume_eq _ r.answer r.answers
  rw [hafter]
  exact ⟨rfl, rfl, rfl, Heap.reveal_recast _ _⟩

theorem Session.alike_renumbered {s : Session} (hu : s.Underway program config) :
    s.Alike ((Guise.renumbered f).session s) where
  status_eq := rfl
  answers_eq := rfl
  pending_eq := Guise.pending_session _ s
  unresolved_eq := congrArg (List.filter fun q : Question => !s.answers.contains q.text)
    ((Guise.fits_renumbered hf program config).questions_session hu)
  globals := by
    rw [(Guise.fits_renumbered hf program config).globals_session]
    exact Globals.alike_recast (faithful_renumbering hf) s.globals

theorem Exchange.alike_renumbered (e : Exchange) : e.Alike ((Guise.renumbered f).exchange e) where
  request_eq := rfl
  result_eq := rfl
  events := List.forall₂_map_right_iff.mpr
    (List.forall₂_same.mpr fun event _ => Guise.event_alike hf event)

end

/-- Slot numbers carry no meaning. If the slots of a program get other numbers that are still apart,
then each pass on the same answers comes to the same end in the same number of turns, with the same
on its tape and the same for the host to see; and the host has the same dialogue with a session,
except for the order of global names and the choice among equal ones. -/
theorem Program.slotIds_immaterial {program : Program} {f : Nat → Nat}
    (hf : ∀ i ∈ program.slotIds, ∀ j ∈ program.slotIds, f i = f j → i = j) (config : Config) :
    (∀ first later, (Pass.after config program first later).Alike
      (Pass.after config (program.renumber f) first later)) ∧
    ∀ log s, History program config log s →
      ∃ log' s', History (program.renumber f) config log' s' ∧
        List.Forall₂ Exchange.Alike log log' ∧ s.Alike s' ∧
        ∀ request, Exchange.Alike ⟨request, s.handle request⟩ ⟨request, s'.handle request⟩ := by
  obtain ⟨g, hg, heq⟩ := exists_injective_extension hf
  rw [← Program.renumber_congr heq]
  refine ⟨Pass.alike_renumbered hg config program, fun log s h => ?_⟩
  have hfits := Guise.fits_renumbered hg program config
  refine ⟨_, _, hfits.history h, ?_, Session.alike_renumbered hg h.underway, fun request => ?_⟩
  · exact List.forall₂_map_right_iff.mpr
      (List.forall₂_same.mpr fun e _ => Exchange.alike_renumbered hg e)
  · rw [hfits.handle_session h.underway request]
    exact Exchange.alike_renumbered hg ⟨request, s.handle request⟩

theorem Program.slotIds_immaterial_charges :
    let f (i : Nat) : Nat := 9 - i
    let config : Config := ⟨50, true, false⟩
    let ordered := Answers.empty.insert "ordered" (.number 2)
    let later : List Resumption := [⟨.number 5, ordered.insert "rate" (.number 5)⟩]
    let pass := Pass.after config Pass.charges ordered later
    let renumbered := Pass.after config (Pass.charges.renumber f) ordered later
    let s := ((Session.new Pass.charges config).handle .evaluate).session
    let other := ((Session.new (Pass.charges.renumber f) config).handle .evaluate).session
    (∀ i ∈ Pass.charges.slotIds, ∀ j ∈ Pass.charges.slotIds, f i = f j → i = j) ∧ f 9 = f 10 ∧
      pass.outcome = .finished (.record ⟨0⟩) ∧
      pass.machine.heap.reveal (.record ⟨0⟩) =
        .record (.cons "net" (.number 10) (.cons "ordered" (.number 2) .nil)) ∧
      pass.Alike renumbered ∧
      s.globals.names = ["charge", "rate"] ∧ other.globals.names = ["rate", "charge"] ∧
      ∃ log' s', History (Pass.charges.renumber f) config log' s' ∧ s.Alike s' := by
  intro f config ordered later pass renumbered s other
  have hf : ∀ i ∈ Pass.charges.slotIds, ∀ j ∈ Pass.charges.slotIds, f i = f j → i = j := by decide
  obtain ⟨hpasses, hsessions⟩ := Program.slotIds_immaterial hf config
  obtain ⟨log', s', hhistory, _, hs, _⟩ := hsessions _ s (.exchange .evaluate .new)
  exact ⟨hf, rfl, by decide +kernel, by decide +kernel, hpasses ordered later, by decide +kernel,
    by decide +kernel, log', s', hhistory, hs⟩

end Inquiry
