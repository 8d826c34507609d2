import Inquiry.Proofs.Recasting.Machine
set_option autoImplicit false

/-!
Programs with a hole. A name that nothing declares cannot be evaluated, so a pass that does not fail
for want of it has never come to it, and goes the same way with anything else in its place.
-/

namespace Inquiry

/-- The slots that the program declares anywhere, for whatever part of it. -/
def Program.declared (p : Program) : List Slot := (Expr.block p.body).within.flatMap Expr.declared

def Program.declarations (p : Program) : List (Slot × Expr) :=
  (Expr.block p.body).within.flatMap Expr.declarations

theorem Program.declared_part {p : Program} {e : Expr} (he : (Expr.block p.body).PartOf e) :
    e.declared ⊆ p.declared := fun _ hs => List.mem_flatMap.mpr ⟨e, he.mem_within, hs⟩

theorem Program.declarations_part {p : Program} {e : Expr} (he : (Expr.block p.body).PartOf e) :
    e.declarations ⊆ p.declarations := fun _ hb => List.mem_flatMap.mpr ⟨e, he.mem_within, hb⟩

namespace Heap

def ShowsOnly (slots : List Slot) (h : Heap) : Prop :=
  ∀ id, (h.frame id).slotIds ⊆ slots.map Slot.id

namespace ShowsOnly

variable {slots : List Slot} {h later : Heap} {frame : FrameId} {scope : Scope}
  {bindings : List (Slot × Expr)} (hh : h.ShowsOnly slots)
include hh

theorem inView (scope : Scope) : h.inView scope ⊆ slots.map Slot.id := by
  intro slot hs
  obtain ⟨id, _, hi⟩ := List.mem_flatMap.mp hs
  exact hh id hi

theorem declare {slot : Slot} {binding : Binding} (hs : slot ∈ slots) :
    (h.declare frame slot binding).ShowsOnly slots := by
  intro id other ho
  rw [frame_declare] at ho
  split at ho
  · rcases Frame.mem_slotIds_declare.mp ho with rfl | ho
    · exact List.mem_map_of_mem hs
    · exact hh frame ho
  · exact hh id ho

theorem declares (hd : Declares frame scope bindings h later)
    (hb : bindings.map Prod.fst ⊆ slots) : later.ShowsOnly slots := by
  induction hd with
  | nil => exact hh
  | @delayed h _ _ label e _ _ ih =>
    obtain ⟨hs, hrest⟩ := List.cons_subset.mp hb
    have hdelay : (h.delay label e scope).2.ShowsOnly slots := hh
    exact ih (hdelay.declare hs) hrest
  | @function h _ _ name params body _ _ _ _ ih =>
    obtain ⟨hs, hrest⟩ := List.cons_subset.mp hb
    have hadd : (h.addClosure ⟨name, params, body, scope⟩).2.ShowsOnly slots := hh
    exact ih (hadd.declare hs) hrest

theorem opens (ho : h.Opens frame scope bindings later) (hb : bindings.map Prod.fst ⊆ slots) :
    later.ShowsOnly slots := by
  have hframe : h.addFrame.2.ShowsOnly slots := fun id => frame_addFrame h id ▸ hh id
  exact hframe.declares ho.declares hb

theorem openBlock {inner : Scope} {body : List Stmt} (ho : h.openBlock scope body = (inner, later))
    (hb : (Expr.block body).declared ⊆ slots) : later.ShowsOnly slots := by
  obtain ⟨_, _, hopens⟩ := openBlock_opens ho
  exact hh.opens hopens hb

theorem openRecord {id : RecordId} {fields : List Field}
    (ho : h.openRecord scope fields = (id, later)) (hr : (Expr.record fields).declared ⊆ slots) :
    later.ShowsOnly slots := by
  obtain ⟨_, made, _, hopens, rfl⟩ := openRecord_opens ho
  have hbindings : (Field.bindings fields).map Prod.fst = fields.map Field.slot := List.map_map
  have hmade : made.ShowsOnly slots := hh.opens hopens (hbindings ▸ hr)
  exact hmade

theorem openCall {closure : Closure} {args : List Expr} {inner : Scope}
    (ho : h.openCall closure args scope = (inner, later))
    (hn : closure.params.length = args.length) (hc : closure.expr.declared ⊆ slots) :
    later.ShowsOnly slots := by
  obtain ⟨_, _, hopens⟩ := openCall_opens ho
  have hparams : (closure.params.zip args).map Prod.fst = closure.params :=
    List.map_fst_zip (Nat.le_of_eq hn)
  exact hh.opens hopens (hparams.symm ▸ hc)

end ShowsOnly

end Heap

def Recasting.filling (hole : Slot) (e : Expr) : Recasting :=
  ⟨id, fun slot => if slot = hole then e else .name slot, id⟩

/-- The program with an expression in place of a hole, which stands there as a name. -/
def Program.fill (hole : Slot) (e : Expr) (p : Program) : Program := p.recast (.filling hole e)

section

variable {hole : Slot} {e : Expr}

theorem Recasting.faithful_filling : (filling hole e).Faithful :=
  ⟨Iff.rfl, fun _ => rfl, fun _ _ => rfl⟩

/-- A hole that is declared as a value of its own has to be filled with what is evaluated when
needed, as a name is. -/
theorem Recasting.keepsFunctions_filling {bindings : List (Slot × Expr)}
    (hb : ∀ slot, (slot, .name hole) ∈ bindings → e.isFunction = false) :
    (filling hole e).KeepsFunctions bindings := by
  rintro ⟨slot, value⟩ hm
  cases value with
  | name read =>
    by_cases hread : read = hole
    · subst hread
      simp only [Expr.recast, filling, if_pos, hb slot hm]
      rfl
    · simp only [Expr.recast, filling, if_neg hread]
  | _ => rfl

theorem Expr.suits_filling {other : Expr} (hn : other ≠ .name hole)
    (hb : ∀ slot, (slot, .name hole) ∈ other.declarations → e.isFunction = false) :
    other.Suits (.filling hole e) := by
  cases other with
  | name slot => exact if_neg fun hs => hn (congrArg Expr.name hs)
  | block body => exact Recasting.keepsFunctions_filling hb
  | _ => trivial

end

namespace Pass

variable {captureTrace : Bool} {program : Program} {standing : Standing} {m : Machine}

theorem Reaches.showsOnly (h : Reaches captureTrace program standing m) :
    m.heap.ShowsOnly program.declared := by
  induction h with
  | start _ hm =>
    have hempty : Heap.ShowsOnly program.declared ⟨#[], #[], #[], #[]⟩ :=
      fun _ => List.nil_subset _
    have hopen : Heap.openBlock ⟨#[], #[], #[], #[]⟩ [] program.body =
        ([Heap.globalFrame], Heap.initial.bindAll Heap.globalFrame [] program.body) := rfl
    have hglobal := hempty.openBlock hopen (Program.declared_part .refl)
    obtain ⟨_, _, _, rfl⟩ | ⟨_, rfl⟩ := Machine.enterBlock_initial hm
    · exact hglobal
    · exact hglobal
  | stop _ hs ho ih =>
    obtain ⟨rfl, _⟩ := Machine.eq_of_stop hs ho
    exact ih
  | answer _ _ ih => exact ih
  | @next answers control next m m' h hs ih =>
    have hdeclared (e : Expr) (he : e ∈ (Standing.running control).exprs ++ m.exprs) :
        e.declared ⊆ program.declared := Program.declared_part (h.partOf e he)
    cases Machine.move_of_step hs with
    | record ho => exact ih.openRecord ho (hdeclared _ (List.mem_append_left _ List.mem_cons_self))
    | block ho | blockOfNames _ ho =>
      exact ih.openBlock ho (hdeclared _ (List.mem_append_left _ List.mem_cons_self))
    | @callee m id args scope inner heap hn ho =>
      -- The function called is on the heap, so its parameters are among what the program declares.
      obtain ⟨parents, _, hk⟩ := h.sound
      have hclosure := Array.mem_toList_iff.mpr (Heap.closure_mem hk)
      have hmem : (m.heap.closure id).expr ∈ m.heap.exprs :=
        List.mem_append_right _ (List.mem_map_of_mem hclosure)
      have hcallee := hdeclared _ (List.mem_append_right _ (List.mem_append_left _ hmem))
      exact ih.openCall ho hn hcallee
    | completeRecord _ hf | recordField hf => cases hf <;> exact ih
    | @function m scope name params body id heap ho =>
      cases ho
      exact ih
    | _ => exact ih

section

variable {hole : Slot} {e : Expr} (hd : hole.id ∉ program.declared.map Slot.id)
  (hb : ∀ slot, (slot, .name hole) ∈ program.declarations → e.isFunction = false)
include hd hb

/-- A turn that does not fail for want of the hole does not notice what fills it. -/
theorem Reaches.suits_filling {answers : Answers} {control : Control}
    (h : Reaches captureTrace program (.running control) m)
    (hs : m.step answers control ≠ m.fail (.unboundName hole.name)) :
    control.Suits (.filling hole e) := by
  cases control with
  | give d => trivial
  | eval other scope =>
    have hpart := h.partOf other (List.mem_append_left _ List.mem_cons_self)
    refine Expr.suits_filling ?_ fun slot hm => hb slot (Program.declarations_part hpart hm)
    rintro rfl
    have hl : m.heap.lookup hole scope = none :=
      Heap.lookup_eq_none_iff.mpr fun hview => hd (h.showsOnly.inView scope hview)
    exact hs (by simp only [Machine.step, Machine.eval, Machine.evalName, hl])

theorem Reaches.controls_suit_filling {answers : Answers} {control : Control} {gas turns : Nat}
    (h : Reaches captureTrace program (.running control) m)
    (ho : (m.run answers gas turns control).outcome ≠ .failed (.unboundName hole.name)) :
    ∀ c ∈ m.controls answers gas control, c.Suits (.filling hole e) := by
  induction gas generalizing turns control m with
  | zero => simp [Machine.controls]
  | succ gas ih =>
    cases hs : m.step answers control with
    | stop outcome m' =>
      rw [Machine.run_succ_of_stop hs] at ho
      have hcontrols : m.controls answers (gas + 1) control = [control] := by
        simp [Machine.controls, hs]
      rw [hcontrols, List.forall_mem_singleton]
      have hne : m.step answers control ≠ m.fail (.unboundName hole.name) := by
        intro hf
        cases hs.symm.trans hf
        exact ho rfl
      exact h.suits_filling hd hb hne
    | next next m' =>
      rw [Machine.run_succ_of_next hs] at ho
      rw [Machine.controls_succ_of_next hs, List.forall_mem_cons]
      have hne : m.step answers control ≠ m.fail (.unboundName hole.name) := by
        rw [hs]
        exact Turn.noConfusion
      exact ⟨h.suits_filling hd hb hne, ih (h.next hs) ho⟩

end

variable {config : Config} {answers : Answers} {hole : Slot}

/-- Code that is not needed does not matter. If a pass over a program with a hole does not fail for
want of the hole, then it comes to the same end in the same number of turns, with the same on its
tape and the same for the host to see, whatever is put into the hole. -/
theorem unneeded_immaterial (hd : hole.id ∉ program.declared.map Slot.id)
    (ho : (start config program answers).outcome ≠ .failed (.unboundName hole.name)) (e : Expr)
    (hb : (∃ slot, (slot, .name hole) ∈ program.declarations) → e.isFunction = false) :
    let pass := start config program answers
    let filled := start config (program.fill hole e) answers
    filled.outcome = pass.outcome ∧ filled.turns = pass.turns ∧
      filled.machine.tape = pass.machine.tape ∧
      ∀ d, filled.machine.heap.reveal d = pass.machine.heap.reveal d := by
  intro pass filled
  replace hb : ∀ slot, (slot, .name hole) ∈ program.declarations → e.isFunction = false :=
    fun slot hm => hb ⟨slot, hm⟩
  have hfilled : filled = pass.recast (.filling hole e) := by
    refine recast_start Recasting.faithful_filling rfl rfl ?_ fun hbody control m hm => ?_
    · exact Recasting.keepsFunctions_filling fun slot hm =>
        hb slot (Program.declarations_part .refl hm)
    · have hrun : start config program answers = m.run answers config.gasLimit 0 control := by
        rw [start, if_neg (by simpa using hbody), hm]
      exact (Reaches.start hbody hm).controls_suit_filling hd hb (hrun ▸ ho)
  rw [hfilled]
  exact ⟨rfl, rfl, rfl, Heap.reveal_recast _ pass.machine.heap⟩

def fees : Program := ⟨[
  .bind ⟨0, "fee"⟩ (.name ⟨7, "tariff"⟩),
  .expr (.conditional (.input ⟨"gift", .boolean, ""⟩) (.number 0) (.name ⟨0, "fee"⟩))]⟩

theorem unneeded_immaterial_fees :
    let config : Config := ⟨50, true, false⟩
    let gift := Answers.empty.insert "gift" (.boolean true)
    let hole : Slot := ⟨7, "tariff"⟩
    let e : Expr := .binary .div (.input ⟨"weight", .number, ""⟩) (.number 0)
    let pass := start config fees gift
    let filled := start config (fees.fill hole e) gift
    hole.id ∉ fees.declared.map Slot.id ∧ pass.outcome ≠ .failed (.unboundName "tariff") ∧
      e.isFunction = false ∧ pass.outcome = .finished (.number 0) ∧ pass.turns = 8 ∧
      filled.outcome = pass.outcome ∧ filled.turns = pass.turns ∧
      filled.machine.tape = pass.machine.tape ∧
      ∀ d, filled.machine.heap.reveal d = pass.machine.heap.reveal d := by
  intro config gift hole e pass filled
  have hd : hole.id ∉ fees.declared.map Slot.id := by decide
  have hdone : pass.outcome = .finished (.number 0) := by decide
  have ho : pass.outcome ≠ .failed (.unboundName "tariff") := by simp [hdone]
  exact ⟨hd, ho, rfl, hdone, by decide, unneeded_immaterial hd ho e fun _ => rfl⟩

end Pass

end Inquiry
