import Inquiry.Proofs.Machine.Consultation
import Inquiry.Proofs.Recasting.Heap
set_option autoImplicit false

/-!
Machines recast. A turn may be taken before or after, provided that what it evaluates suits the
recasting; so a pass that evaluates nothing else comes to the same end in the same number of turns.
-/

namespace Inquiry

section

variable (r : Recasting)

def Task.recast : Task → Task
  | .binaryRight op right scope => .binaryRight op (right.recast r) scope
  | .logicalRight op right scope => .logicalRight op (right.recast r) scope
  | .branch consequent alternate scope =>
    .branch (consequent.recast r) (alternate.recast r) scope
  | .callee args scope => .callee (args.map (Expr.recast r)) scope
  | task => task

def Control.recast : Control → Control
  | .eval e scope => .eval (e.recast r) scope
  | .give d => .give d

def Machine.recast (m : Machine) : Machine :=
  ⟨m.heap.recast r, m.stack.map (Task.recast r), r.tape m.tape, m.opened⟩

def Turn.recast : Turn → Turn
  | .next control m => .next (control.recast r) (m.recast r)
  | .stop outcome m => .stop outcome (m.recast r)

def Pass.recast (p : Pass) : Pass := { p with machine := p.machine.recast r }

def Program.recast (p : Program) : Program := ⟨p.body.map (Stmt.recast r)⟩

/-- Whether a turn on the expression does not notice that it is recast. -/
def Expr.Suits : Expr → Prop
  | .name slot => r.name slot = .name (r.slot slot)
  | .block body => r.KeepsFunctions (Stmt.bindings body)
  | _ => True

def Control.Suits : Control → Prop
  | .eval e _ => e.Suits r
  | .give _ => True

variable {r}

theorem Control.suits_of (hs : ∀ e : Expr, e.Suits r) (control : Control) : control.Suits r := by
  cases control with
  | eval e scope => exact hs e
  | give d => trivial

end

namespace Machine

variable {r : Recasting} (answers : Answers) (m : Machine)

theorem recast_enter (id : ThunkId) (task : Task) :
    (m.recast r).enter id (task.recast r) = (m.enter id task).recast r := by
  have hs : (m.recast r).heap.setState id .forcing = (m.heap.setState id .forcing).recast r :=
    Heap.setState_recast r m.heap id .forcing
  rw [enter, hs]
  rfl

theorem recast_leadingField : (m.recast r).leadingField = m.leadingField := by
  obtain ⟨heap, stack, tape, opened⟩ := m
  cases stack with
  | nil => rfl
  | cons task stack => cases task <;> rfl

theorem recast_force (id : ThunkId) (task : Task) {ready : Datum → Machine → Turn}
    (hready : ∀ d, ready d (m.recast r) = (ready d m).recast r) :
    (m.recast r).force id (task.recast r) ready = (m.force id task ready).recast r := by
  have ht : (m.recast r).heap.thunk id = (m.heap.thunk id).recast r :=
    Heap.thunk_recast r m.heap id
  have hs : ((m.recast r).heap.thunk id).state = (m.heap.thunk id).state := by
    rw [ht]
    rfl
  cases hstate : (m.heap.thunk id).state with
  | unforced =>
    rw [force_of_unforced hstate, force_of_unforced (hs.trans hstate), recast_enter, ht]
    rfl
  | forcing =>
    rw [force_of_forcing hstate, force_of_forcing (hs.trans hstate), ht]
    rfl
  | forced d => rw [force_of_forced hstate, force_of_forced (hs.trans hstate), hready]

section

variable (hr : r.Faithful)
include hr

theorem recast_emit (rule : Rule) : (m.recast r).emit rule = (m.emit rule).recast r := by
  simp only [recast, emit, hr.emit_eq]

theorem recast_conclude (d : Datum) (rule : Summary → Rule) :
    (m.recast r).conclude d rule = (m.conclude d rule).recast r := by
  have hs : (m.recast r).heap.summary d = m.heap.summary d := Heap.summary_recast r m.heap d
  simp only [conclude, hs, recast_emit m hr, Turn.recast, Control.recast]

theorem recast_evalName (slot : Slot) (scope : Scope) :
    (m.recast r).evalName (r.slot slot) scope = (m.evalName slot scope).recast r := by
  have hl : (m.recast r).heap.lookup (r.slot slot) scope = m.heap.lookup slot scope :=
    Heap.lookup_recast hr m.heap slot scope
  simp only [evalName, hl, hr.name_eq]
  cases m.heap.lookup slot scope with
  | none => rfl
  | some binding =>
    cases binding with
    | value d => exact recast_conclude m hr d _
    | delayed id =>
      exact recast_force m id (.nameDone slot.name) fun d => recast_conclude m hr d _

theorem recast_evalRecord (scope : Scope) (fields : List Field) :
    (m.recast r).evalRecord scope (fields.map (Field.recast r)) =
      (m.evalRecord scope fields).recast r := by
  obtain ⟨heap, stack, tape, opened⟩ := m
  simp only [recast, evalRecord, Heap.addFrame_recast, Heap.bindFields_recast hr,
    Heap.addRecord_recast]
  exact recast_conclude ⟨_, stack, tape, opened⟩ hr _ _

theorem recast_evalFunction (closure : Closure) :
    (m.recast r).evalFunction (closure.recast r) = (m.evalFunction closure).recast r := by
  obtain ⟨heap, stack, tape, opened⟩ := m
  simp only [recast, evalFunction, Heap.addClosure_recast]
  exact recast_conclude ⟨_, stack, tape, opened⟩ hr _ _

theorem recast_enterBlock (frame : FrameId) (outer : Scope) {body : List Stmt}
    (hb : r.KeepsFunctions (Stmt.bindings body)) :
    (m.recast r).enterBlock frame outer (body.map (Stmt.recast r)) =
      ((m.enterBlock frame outer body).1.recast r, (m.enterBlock frame outer body).2.recast r) := by
  obtain ⟨heap, stack, tape, opened⟩ := m
  simp only [recast, enterBlock, Heap.bindAll_recast hr _ _ _ hb, Stmt.lastExpr?_recast]
  cases Stmt.lastExpr? body with
  | none =>
    simp only [Option.map_none, hr.emit_eq]
    rfl
  | some e => rfl

theorem recast_evalBlock (scope : Scope) {body : List Stmt}
    (hb : r.KeepsFunctions (Stmt.bindings body)) :
    (m.recast r).evalBlock scope (body.map (Stmt.recast r)) =
      (m.evalBlock scope body).recast r := by
  obtain ⟨heap, stack, tape, opened⟩ := m
  have henter :=
    recast_enterBlock ⟨heap.addFrame.2, stack, tape, opened⟩ hr heap.addFrame.1 scope hb
  cases body with
  | nil =>
    simp only [recast, evalBlock, Heap.addFrame_recast]
    rfl
  | cons stmt rest =>
    simp only [recast] at henter
    simp only [recast, evalBlock, Heap.addFrame_recast, List.isEmpty_map, henter]
    rfl

theorem recast_eval (scope : Scope) {e : Expr} (he : e.Suits r) :
    (m.recast r).eval answers scope (e.recast r) = (m.eval answers scope e).recast r := by
  cases e with
  | number | boolean => exact recast_conclude m hr _ _
  | input question =>
    simp only [Expr.recast, eval, evalInput]
    cases answers.get? question.text with
    | none => rfl
    | some answer => exact recast_conclude m hr _ _
  | record fields =>
    rw [Expr.recast_record]
    exact recast_evalRecord m hr scope fields
  | function name params body => exact recast_evalFunction m hr ⟨name, params, body, scope⟩
  | name slot =>
    rw [Expr.recast, show r.name slot = _ from he]
    exact recast_evalName m hr slot scope
  | block body =>
    rw [Expr.recast_block]
    exact recast_evalBlock m hr scope he
  | call callee args =>
    rw [Expr.recast_call]
    rfl
  | _ => rfl

theorem recast_call (callee : Datum) (args : List Expr) (caller : Scope) :
    call callee (args.map (Expr.recast r)) caller (m.recast r) =
      (call callee args caller m).recast r := by
  cases callee with
  | closure id =>
    have hclosure : (m.recast r).heap.closure id = (m.heap.closure id).recast r :=
      Heap.closure_recast r m.heap id
    simp only [call, hclosure]
    generalize m.heap.closure id = closure
    obtain ⟨name, params, body, scope⟩ := closure
    obtain ⟨heap, stack, tape, opened⟩ := m
    simp only [Closure.recast, List.length_map, recast, Heap.addFrame_recast,
      Heap.bindParams_recast hr]
    split <;> rfl
  | _ => rfl

theorem recast_completeField (record : RecordId) (field : Nat) :
    (m.recast r).completeField record field = (m.completeField record field).recast r := by
  have hrecord : (m.recast r).heap.record record = m.heap.record record := rfl
  unfold completeField
  rw [hrecord]
  cases (m.heap.record record)[field]? with
  | none => exact recast_conclude m.closeResult hr _ _
  | some found =>
    exact recast_force (m.push (.recordField record field)) found.2 .complete fun d =>
      recast_conclude ((m.push (.recordField record field)).push .complete) hr d _

theorem recast_completeRecord (record : RecordId) :
    (m.recast r).completeRecord record = (m.completeRecord record).recast r := by
  have hopened : (m.recast r).opened = m.opened := rfl
  unfold completeRecord
  rw [hopened]
  split
  · rw [recast_leadingField]
    rfl
  · exact recast_completeField (m.openResult record) hr record 0

theorem recast_readField (field : String) (d : Datum) :
    (m.recast r).readField field d = (m.readField field d).recast r := by
  cases d with
  | record record =>
    have hfield : (m.recast r).heap.field? record field = m.heap.field? record field := rfl
    simp only [readField, hfield]
    cases m.heap.field? record field with
    | none => rfl
    | some id => exact recast_force m id (.accessDone field) fun d => recast_conclude m hr d _
  | _ => rfl

theorem recast_apply (d : Datum) (task : Task) :
    (m.recast r).apply d (task.recast r) = (m.apply d task).recast r := by
  cases task with
  | binaryApply op left =>
    simp only [Task.recast, apply]
    cases op.apply left d with
    | ok result => exact recast_conclude m hr _ _
    | error e => rfl
  | unaryApply op =>
    simp only [Task.recast, apply]
    cases op.apply d with
    | ok result => exact recast_conclude m hr _ _
    | error e => rfl
  | logicalRight op right scope =>
    simp only [Task.recast, apply]
    cases d.toBool (.operand op) with
    | error e => rfl
    | ok left =>
      simp only
      split
      · exact recast_conclude m hr _ _
      · rfl
  | logicalApply op =>
    simp only [Task.recast, apply]
    cases d.toBool (.operand op) with
    | ok b => exact recast_conclude m hr _ _
    | error e => rfl
  | branch consequent alternate scope =>
    simp only [Task.recast, apply]
    cases d.toBool .predicate with
    | error e => rfl
    | ok taken => cases taken <;> rfl
  | access field => exact recast_readField m hr field d
  | branchDone | accessDone | nameDone | blockDone | callDone => exact recast_conclude m hr _ _
  | memoize id =>
    have hs : (m.recast r).heap.setState id (.forced d) =
        (m.heap.setState id (.forced d)).recast r := Heap.setState_recast r m.heap id (.forced d)
    exact congrArg (fun h => Turn.next (.give d) ((m.recast r).withHeap h)) hs
  | callee args scope => exact recast_call m hr d args scope
  | complete =>
    cases d with
    | record record => exact recast_completeRecord m hr record
    | _ => rfl
  | recordField record field => exact recast_completeField m hr record (field + 1)
  | binaryRight => rfl

theorem recast_step {control : Control} (hc : control.Suits r) :
    (m.recast r).step answers (control.recast r) = (m.step answers control).recast r := by
  cases control with
  | eval e scope => exact recast_eval answers m hr scope hc
  | give d =>
    obtain ⟨heap, stack, tape, opened⟩ := m
    cases stack with
    | nil => rfl
    | cons task stack => exact recast_apply ⟨heap, stack, tape, opened⟩ hr d task

end

def controls (answers : Answers) : Nat → Control → Machine → List Control
  | 0, _, _ => []
  | gas + 1, control, m =>
    control :: match m.step answers control with
      | .next next m' => controls answers gas next m'
      | .stop _ _ => []

theorem controls_succ_of_next {answers : Answers} {m m' : Machine} {gas : Nat}
    {control next : Control} (h : m.step answers control = .next next m') :
    m.controls answers (gas + 1) control = control :: m'.controls answers gas next := by
  simp [controls, h]

/-- A run all of whose turns suit the recasting may be made before or after it. -/
theorem recast_run (hr : r.Faithful) {answers : Answers} {m : Machine} {gas : Nat}
    {control : Control} (turns : Nat) (hc : ∀ c ∈ m.controls answers gas control, c.Suits r) :
    (m.recast r).run answers gas turns (control.recast r) =
      (m.run answers gas turns control).recast r := by
  induction gas generalizing turns control m with
  | zero => rfl
  | succ gas ih =>
    have hstep := recast_step answers m hr (hc control List.mem_cons_self)
    cases hs : m.step answers control with
    | stop outcome m' =>
      rw [run_succ_of_stop hs, run_succ_of_stop (hstep.trans (congrArg _ hs))]
      rfl
    | next next m' =>
      rw [controls_succ_of_next hs] at hc
      rw [run_succ_of_next hs, run_succ_of_next (hstep.trans (congrArg _ hs))]
      exact ih (turns + 1) fun c hm => hc c (List.mem_cons_of_mem _ hm)

end Machine

namespace Pass

variable {r : Recasting} (hr : r.Faithful)
include hr

theorem recast_start {config config' : Config} {program : Program} {answers : Answers}
    (hgas : config'.gasLimit = config.gasLimit)
    (htape : r.tape (.empty config.captureTrace) = .empty config'.captureTrace)
    (hb : r.KeepsFunctions (Stmt.bindings program.body))
    (hc : program.body ≠ [] → ∀ control m, (Machine.initial config.captureTrace).enterBlock
      Heap.globalFrame [] program.body = (control, m) →
        ∀ c ∈ m.controls answers config.gasLimit control, c.Suits r) :
    start config' (program.recast r) answers = (start config program answers).recast r := by
  have hinitial : (Machine.initial config.captureTrace).recast r =
      Machine.initial config'.captureTrace := by
    simp only [Machine.recast, Machine.initial, Heap.initial_recast, htape]
    rfl
  have henter := Machine.recast_enterBlock (Machine.initial config.captureTrace) hr
    Heap.globalFrame [] hb
  rw [hinitial] at henter
  simp only [start, Program.recast, List.isEmpty_map, hgas, henter]
  split
  · exact congrArg (fun m => Pass.mk m _ 0) hinitial.symm
  · rename_i hbody
    rw [List.isEmpty_iff] at hbody
    exact Machine.recast_run hr 0 (hc hbody _ _ rfl)

theorem recast_resume {config config' : Config} {answers : Answers} (answer : Answer) (pass : Pass)
    (hgas : config'.gasLimit = config.gasLimit) (hs : ∀ e : Expr, e.Suits r) :
    (pass.recast r).resume config' answer answers =
      (pass.resume config answer answers).recast r := by
  cases ho : pass.outcome with
  | parked question =>
    have ho' : (pass.recast r).outcome = .parked question := ho
    let m := pass.machine.emit (.input question.text answer.summary)
    have hrun : (m.recast r).run answers (config.gasLimit - pass.turns) pass.turns
        ((Control.give answer.datum).recast r) = _ :=
      Machine.recast_run hr pass.turns fun c _ => Control.suits_of hs c
    rw [resume_of_parked ho, resume_of_parked ho', hgas, ← hrun, ← Machine.recast_emit _ hr]
    rfl
  | finished | failed =>
    have hstuck : ∀ question, pass.outcome ≠ .parked question := by simp [ho]
    have hstuck' : ∀ question, (pass.recast r).outcome ≠ .parked question := hstuck
    rw [resume_of_not_parked hstuck, resume_of_not_parked hstuck']

end Pass

end Inquiry
