import Inquiry.Proofs.Likeness.Block
import Inquiry.Proofs.Machine.Consultation
import Inquiry.Proofs.Operators
set_option autoImplicit false

namespace Inquiry

inductive Task.Alike (named : Nat → Prop) (l : Likeness) : Task → Task → Prop where
  | binaryRight (op : BinOp) {right right' : Expr} (hr : right.Alike named right')
      (scope : Scope) : Alike named l (.binaryRight op right scope) (.binaryRight op right' scope)
  | binaryApply (op : BinOp) {left left' : Datum} (hl : left.Alike l left') :
      Alike named l (.binaryApply op left) (.binaryApply op left')
  | unaryApply (op : UnaryOp) : Alike named l (.unaryApply op) (.unaryApply op)
  | logicalRight (op : LogicalOp) {right right' : Expr} (hr : right.Alike named right')
      (scope : Scope) : Alike named l (.logicalRight op right scope) (.logicalRight op right' scope)
  | logicalApply (op : LogicalOp) : Alike named l (.logicalApply op) (.logicalApply op)
  | branch {consequent consequent' alternate alternate' : Expr}
      (hc : consequent.Alike named consequent') (ha : alternate.Alike named alternate')
      (scope : Scope) :
      Alike named l (.branch consequent alternate scope) (.branch consequent' alternate' scope)
  | branchDone (consequent : Bool) : Alike named l (.branchDone consequent) (.branchDone consequent)
  | access (field : String) : Alike named l (.access field) (.access field)
  | accessDone (field : String) : Alike named l (.accessDone field) (.accessDone field)
  | nameDone (name : String) : Alike named l (.nameDone name) (.nameDone name)
  | memoize {id id' : ThunkId} (ht : l.thunks id id') : Alike named l (.memoize id) (.memoize id')
  | blockDone : Alike named l .blockDone .blockDone
  | callee {args args' : List Expr} (ha : List.Forall₂ (Expr.Alike named) args args')
      (scope : Scope) : Alike named l (.callee args scope) (.callee args' scope)
  | callDone : Alike named l .callDone .callDone
  | complete : Alike named l .complete .complete
  | recordField (record : RecordId) (field : Nat) :
      Alike named l (.recordField record field) (.recordField record field)

inductive Control.Alike (named : Nat → Prop) (l : Likeness) : Control → Control → Prop where
  | eval {e e' : Expr} (he : e.Alike named e') (scope : Scope) :
      Alike named l (.eval e scope) (.eval e' scope)
  | give {d d' : Datum} (hd : d.Alike l d') : Alike named l (.give d) (.give d')

inductive Outcome.Alike (l : Likeness) : Outcome → Outcome → Prop where
  | finished {d d' : Datum} (hd : d.Alike l d') : Alike l (.finished d) (.finished d')
  | parked (question : Question) : Alike l (.parked question) (.parked question)
  | failed (e : EvalError) : Alike l (.failed e) (.failed e)

structure Machine.Alike (named : Nat → Prop) (l : Likeness) (m m' : Machine) : Prop where
  heap : m.heap.Alike named l m'.heap
  stack : List.Forall₂ (Task.Alike named l) m.stack m'.stack
  tape : m.tape = m'.tape
  opened : m.opened = m'.opened

/-- The turns lead to machines that are alike, whatever may then correspond. -/
inductive Turn.Alike (named : Nat → Prop) : Turn → Turn → Prop where
  | next {l : Likeness} {control control' : Control} {m m' : Machine}
      (hc : control.Alike named l control') (hm : m.Alike named l m') :
      Alike named (.next control m) (.next control' m')
  | stop {l : Likeness} {outcome outcome' : Outcome} {m m' : Machine}
      (ho : outcome.Alike l outcome') (hm : m.Alike named l m') :
      Alike named (.stop outcome m) (.stop outcome' m')

/-- The passes took the same number of turns to machines and outcomes that are alike. -/
structure Pass.EndsAlike (named : Nat → Prop) (l : Likeness) (pass other : Pass) : Prop where
  machine : pass.machine.Alike named l other.machine
  outcome : pass.outcome.Alike l other.outcome
  turns : pass.turns = other.turns

variable {named : Nat → Prop} {l more : Likeness}

theorem Task.Alike.mono (hl : l.Extends more) {task task' : Task} (h : task.Alike named l task') :
    task.Alike named more task' := by
  cases h with
  | binaryRight op hr scope => exact .binaryRight op hr scope
  | binaryApply op hleft => exact .binaryApply op (hleft.mono hl)
  | unaryApply op => exact .unaryApply op
  | logicalRight op hr scope => exact .logicalRight op hr scope
  | logicalApply op => exact .logicalApply op
  | branch hc ha scope => exact .branch hc ha scope
  | branchDone consequent => exact .branchDone consequent
  | access field => exact .access field
  | accessDone field => exact .accessDone field
  | nameDone name => exact .nameDone name
  | memoize ht => exact .memoize (hl.thunks ht)
  | blockDone => exact .blockDone
  | callee ha scope => exact .callee ha scope
  | callDone => exact .callDone
  | complete => exact .complete
  | recordField record field => exact .recordField record field

namespace Datum

theorem alike_answer (l : Likeness) (answer : Answer) : answer.datum.Alike l answer.datum := by
  cases answer with
  | number n => exact .number n
  | boolean b => exact .boolean b

namespace Alike

variable {d d' left left' : Datum} (hd : d.Alike l d')
include hd

theorem toBool_eq (place : Condition) : d.toBool place = d'.toBool place := by cases hd <;> rfl

theorem unary_eq (op : UnaryOp) : op.apply d = op.apply d' := by cases op <;> cases hd <;> rfl

theorem binary_eq (hl : left.Alike l left') (op : BinOp) : op.apply left d = op.apply left' d' := by
  have hsame (op : BinOp) : left.same op d = left'.same op d' := by cases hl <;> cases hd <;> rfl
  cases op
  case eq | notEq => simp only [BinOp.apply, hsame]
  all_goals cases hl <;> cases hd <;> rfl

end Alike

end Datum

namespace Machine

theorem evalRecord_eq (m : Machine) (scope : Scope) (fields : List Field) :
    m.evalRecord scope fields = (m.withHeap (m.heap.openRecord scope fields).2).conclude
      (.record (m.heap.openRecord scope fields).1) .literal := rfl

theorem evalBlock_eq (m : Machine) (scope : Scope) (body : List Stmt) :
    m.evalBlock scope body =
      if body.isEmpty then (m.withHeap m.heap.addFrame.2).fail .emptyBlock
      else
        let entered := (m.withHeap m.heap.addFrame.2).enterBlock m.heap.addFrame.1 scope body
        .next entered.1 entered.2 := rfl

theorem call_closure (id : ClosureId) (args : List Expr) (caller : Scope) (m : Machine) :
    call (.closure id) args caller m =
      let closure := m.heap.closure id
      if closure.params.length = args.length then
        .next (.eval closure.body (m.heap.openCall closure args caller).1)
          ((m.withHeap (m.heap.openCall closure args caller).2).push .callDone)
      else m.fail (.arityMismatch closure.name closure.params.length args.length) := rfl

end Machine

namespace Machine.Alike

variable {m m' : Machine} (hm : m.Alike named l m')
include hm

theorem push {task task' : Task} (ht : task.Alike named l task') :
    (m.push task).Alike named l (m'.push task') :=
  ⟨hm.heap, .cons ht hm.stack, hm.tape, hm.opened⟩

theorem withHeap (hl : l.Extends more) {heap heap' : Heap} (hh : heap.Alike named more heap') :
    (m.withHeap heap).Alike named more (m'.withHeap heap') :=
  ⟨hh, hm.stack.imp fun _ _ => Task.Alike.mono hl, hm.tape, hm.opened⟩

theorem emit (rule : Rule) : (m.emit rule).Alike named l (m'.emit rule) :=
  ⟨hm.heap, hm.stack, congrArg (Tape.emit · rule) hm.tape, hm.opened⟩

theorem fail (e : EvalError) : Turn.Alike named (m.fail e) (m'.fail e) := .stop (.failed e) hm

theorem conclude {d d' : Datum} (hd : d.Alike l d') (rule : Summary → Rule) :
    Turn.Alike named (m.conclude d rule) (m'.conclude d' rule) := by
  unfold Machine.conclude
  rw [hm.heap.summary hd]
  exact .next (.give hd) (hm.emit _)

theorem enter {id id' : ThunkId} (ht : l.thunks id id') {task task' : Task}
    (htask : task.Alike named l task') : (m.enter id task).Alike named l (m'.enter id' task') :=
  ((hm.withHeap (.refl l) (hm.heap.setState ht .forcing)).push htask).push (.memoize ht)

theorem force {id id' : ThunkId} (ht : l.thunks id id') {task task' : Task}
    (htask : task.Alike named l task') {ready ready' : Datum → Machine → Turn}
    (hready : ∀ d d', d.Alike l d' → Turn.Alike named (ready d m) (ready' d' m')) :
    Turn.Alike named (m.force id task ready) (m'.force id' task' ready') := by
  have hthunk := hm.heap.thunk ht
  have hstate := hthunk.state
  generalize hs : (m.heap.thunk id).state = state at hstate
  generalize hs' : (m'.heap.thunk id').state = state' at hstate
  cases hstate with
  | unforced =>
    rw [force_of_unforced hs, force_of_unforced hs', hthunk.scope]
    exact .next (.eval hthunk.expr _) (hm.enter ht htask)
  | forcing =>
    rw [force_of_forcing hs, force_of_forcing hs', hthunk.label]
    exact hm.fail _
  | forced hd =>
    rw [force_of_forced hs, force_of_forced hs']
    exact hready _ _ hd

theorem evalName {slot : Slot} (hn : named slot.id) (scope : Scope) :
    Turn.Alike named (m.evalName slot scope) (m'.evalName slot scope) := by
  have hlookup := hm.heap.lookup hn scope
  unfold Machine.evalName
  generalize m.heap.lookup slot scope = found at hlookup
  generalize m'.heap.lookup slot scope = found' at hlookup
  cases hlookup with
  | none => exact hm.fail _
  | some hb =>
    cases hb with
    | value hd => exact hm.conclude hd _
    | delayed ht => exact hm.force ht (.nameDone slot.name) fun d d' hd => hm.conclude hd _

theorem evalInput (answers : Answers) (question : Question) :
    Turn.Alike named (m.evalInput answers question) (m'.evalInput answers question) := by
  unfold Machine.evalInput
  cases answers.get? question.text with
  | none => exact .stop (.parked question) hm
  | some answer => exact hm.conclude (Datum.alike_answer l answer) _

theorem evalRecord (scope : Scope) {fields fields' : List Field}
    (hn : fields.map Field.name = fields'.map Field.name)
    (hs : fields.map Field.slot = fields'.map Field.slot)
    (hv : List.Forall₂ (Expr.Alike named) (fields.map Field.value) (fields'.map Field.value)) :
    Turn.Alike named (m.evalRecord scope fields) (m'.evalRecord scope fields') := by
  obtain ⟨more, hl, hid, hheap⟩ := hm.heap.openRecord scope hn hs hv
  rw [evalRecord_eq, evalRecord_eq, ← hid]
  exact (hm.withHeap hl hheap).conclude (.record _) .literal

theorem evalFunction {c c' : Closure} (hc : c.Alike named c') :
    Turn.Alike named (m.evalFunction c) (m'.evalFunction c') :=
  (hm.withHeap (l.extends_addClosure _ _) (hm.heap.addClosure hc)).conclude
    (.closure (.inr ⟨rfl, rfl⟩)) .literal

/-- The frame of the block has to be empty, or what was declared in it before would count too. -/
theorem enterBlock (frame : FrameId) (hf : frame.index < m.heap.frames.size)
    (he : m.heap.frame frame = []) (he' : m'.heap.frame frame = []) (outer : Scope)
    {body body' : List Stmt} (hb : (Expr.block body).Alike named (.block body')) :
    ∃ more, (m.enterBlock frame outer body).1.Alike named more (m'.enterBlock frame outer body').1 ∧
      (m.enterBlock frame outer body).2.Alike named more (m'.enterBlock frame outer body').2 := by
  cases hb with
  | block _ hlast hs hv =>
    have hp := Heap.populates_bindAll hf outer body
    have hp' := Heap.populates_bindAll (hm.heap.frames_size ▸ hf) outer body'
    have hpopulate := Heap.Alike.populate hp hp' he he' hs hv hm.heap
    have hl := l.extends_addSlots named ((m.heap.bindAll frame outer body).frame frame)
      ((m'.heap.bindAll frame outer body').frame frame)
    have hbound := hm.withHeap hl hpopulate
    unfold Machine.enterBlock
    generalize Stmt.lastExpr? body = last at hlast
    generalize Stmt.lastExpr? body' = last' at hlast
    cases hlast with
    | none => exact ⟨_, .give .undefined, hbound.emit _⟩
    | some he => exact ⟨_, .eval he _, hbound.push .blockDone⟩

theorem evalBlock (scope : Scope) {body body' : List Stmt}
    (hb : (Expr.block body).Alike named (.block body')) :
    Turn.Alike named (m.evalBlock scope body) (m'.evalBlock scope body') := by
  have hframe := hm.withHeap (.refl l) hm.heap.addFrame
  rw [evalBlock_eq, evalBlock_eq, ← hm.heap.addFrame_eq, ← hb.isEmpty_eq]
  cases body.isEmpty with
  | true => exact hframe.fail _
  | false =>
    have hempty : m'.heap.addFrame.2.frame m.heap.addFrame.1 = [] :=
      hm.heap.addFrame_eq ▸ m'.heap.frame_addFrame_new
    obtain ⟨more, hcontrol, hmachine⟩ := hframe.enterBlock m.heap.addFrame.1
      (by simp [Heap.addFrame]) m.heap.frame_addFrame_new hempty scope hb
    exact .next hcontrol hmachine

theorem eval (answers : Answers) (scope : Scope) {e e' : Expr} (he : e.Alike named e') :
    Turn.Alike named (m.eval answers scope e) (m'.eval answers scope e') := by
  cases he with
  | number n => exact hm.conclude (.number n) _
  | boolean b => exact hm.conclude (.boolean b) _
  | input question => exact hm.evalInput answers question
  | record hn hs hv => exact hm.evalRecord scope hn hs hv
  | function name params hb => exact hm.evalFunction ⟨rfl, rfl, hb, rfl⟩
  | name hn => exact hm.evalName hn scope
  | binary op hl hr => exact .next (.eval hl scope) (hm.push (.binaryRight op hr scope))
  | unary op ho => exact .next (.eval ho scope) (hm.push (.unaryApply op))
  | logical op hl hr => exact .next (.eval hl scope) (hm.push (.logicalRight op hr scope))
  | conditional hp hc ha => exact .next (.eval hp scope) (hm.push (.branch hc ha scope))
  | access hb field => exact .next (.eval hb scope) (hm.push (.access field))
  | block he hl hs hv => exact hm.evalBlock scope (.block he hl hs hv)
  | call hc ha => exact .next (.eval hc scope) (hm.push (.callee ha scope))

theorem call {callee callee' : Datum} (hd : callee.Alike l callee') {args args' : List Expr}
    (hargs : List.Forall₂ (Expr.Alike named) args args') (caller : Scope) :
    Turn.Alike named (call callee args caller m) (call callee' args' caller m') := by
  cases hd with
  | @closure id id' hc =>
    have hclosure := hm.heap.closure hc
    obtain ⟨more, hl, hscope, hheap⟩ := hm.heap.openCall hclosure hargs caller
    simp only [call_closure, ← hclosure.params, ← hclosure.name, ← hargs.length_eq, ← hscope]
    split
    · exact .next (.eval hclosure.body _) ((hm.withHeap hl hheap).push .callDone)
    · exact hm.fail _
  | _ => exact hm.fail _

theorem completeField (record : RecordId) (field : Nat) :
    Turn.Alike named (m.completeField record field) (m'.completeField record field) := by
  have hrecord := hm.heap.record_getElem? record field
  unfold Machine.completeField
  generalize (m.heap.record record)[field]? = found at hrecord
  generalize (m'.heap.record record)[field]? = found' at hrecord
  cases hrecord with
  | none =>
    have hclose : m.closeResult.Alike named l m'.closeResult :=
      ⟨hm.heap, hm.stack, hm.tape, congrArg (List.drop 1) hm.opened⟩
    rw [← hm.heap.fieldNames]
    exact hclose.conclude (.record record) _
  | @some found found' hf =>
    obtain ⟨name, id⟩ := found
    obtain ⟨name', id'⟩ := found'
    obtain ⟨rfl, ht⟩ : name = name' ∧ _ := hf
    have hpush := hm.push (.recordField record field)
    exact hpush.force ht .complete fun d d' hd => (hpush.push .complete).conclude hd _

theorem leadingField_eq : m.leadingField = m'.leadingField := by
  have hstack := hm.stack
  unfold leadingField
  generalize m.stack = stack at hstack
  generalize m'.stack = stack' at hstack
  cases hstack with
  | nil => rfl
  | cons ht =>
    cases ht with
    | recordField record field =>
      have hrecord := hm.heap.record_getElem? record field
      simp only
      generalize (m.heap.record record)[field]? = found at hrecord
      generalize (m'.heap.record record)[field]? = found' at hrecord
      cases hrecord with
      | none => rfl
      | some hf => simp only [Option.map_some, hf.1]
    | _ => rfl

theorem completeRecord (record : RecordId) :
    Turn.Alike named (m.completeRecord record) (m'.completeRecord record) := by
  have hopen : (m.openResult record).Alike named l (m'.openResult record) :=
    ⟨hm.heap, hm.stack, hm.tape, congrArg (List.cons record) hm.opened⟩
  unfold Machine.completeRecord
  rw [← hm.opened, ← hm.leadingField_eq]
  split
  · exact hm.fail _
  · exact hopen.completeField record 0

theorem readField (field : String) {d d' : Datum} (hd : d.Alike l d') :
    Turn.Alike named (m.readField field d) (m'.readField field d') := by
  cases hd with
  | record record =>
    have hfield := hm.heap.field? record field
    simp only [Machine.readField]
    generalize m.heap.field? record field = found at hfield
    generalize m'.heap.field? record field = found' at hfield
    cases hfield with
    | none => exact hm.fail _
    | some ht => exact hm.force ht (.accessDone field) fun d d' hd => hm.conclude hd _
  | _ => exact hm.fail _

theorem apply {d d' : Datum} (hd : d.Alike l d') {task task' : Task}
    (ht : task.Alike named l task') : Turn.Alike named (m.apply d task) (m'.apply d' task') := by
  cases ht with
  | binaryRight op hr scope => exact .next (.eval hr scope) (hm.push (.binaryApply op hd))
  | @binaryApply op left left' hl =>
    simp only [Machine.apply, ← hd.binary_eq hl]
    cases hr : op.apply left d with
    | ok result =>
      obtain ⟨_, _, answer, _, _, rfl⟩ := BinOp.apply_eq_ok hr
      exact hm.conclude (Datum.alike_answer l answer) _
    | error e => exact hm.fail e
  | unaryApply op =>
    simp only [Machine.apply, ← hd.unary_eq]
    cases hr : op.apply d with
    | ok result =>
      obtain ⟨_, answer, _, rfl⟩ := UnaryOp.apply_eq_ok hr
      exact hm.conclude (Datum.alike_answer l answer) _
    | error e => exact hm.fail e
  | logicalRight op hr scope =>
    simp only [Machine.apply, ← hd.toBool_eq]
    cases d.toBool (.operand op) with
    | ok left =>
      simp only
      split
      · exact hm.conclude hd _
      · exact .next (.eval hr scope) (hm.push (.logicalApply op))
    | error e => exact hm.fail e
  | logicalApply op =>
    simp only [Machine.apply, ← hd.toBool_eq]
    cases d.toBool (.operand op) with
    | ok _ => exact hm.conclude hd _
    | error e => exact hm.fail e
  | branch hc ha scope =>
    simp only [Machine.apply, ← hd.toBool_eq]
    cases d.toBool .predicate with
    | ok taken =>
      cases taken with
      | true => exact .next (.eval hc scope) (hm.push (.branchDone true))
      | false => exact .next (.eval ha scope) (hm.push (.branchDone false))
    | error e => exact hm.fail e
  | access field => exact hm.readField field hd
  | branchDone | accessDone | nameDone | blockDone | callDone => exact hm.conclude hd _
  | memoize ht => exact .next (.give hd) (hm.withHeap (.refl l) (hm.heap.setState ht (.forced hd)))
  | callee ha scope => exact hm.call hd ha scope
  | complete =>
    cases hd with
    | record record => exact hm.completeRecord record
    | number n => exact .next (.give (.number n)) hm
    | boolean b => exact .next (.give (.boolean b)) hm
    | closure hc => exact .next (.give (.closure hc)) hm
    | undefined => exact .next (.give .undefined) hm
  | recordField record field => exact hm.completeField record (field + 1)

theorem step (answers : Answers) {control control' : Control}
    (hc : control.Alike named l control') :
    Turn.Alike named (m.step answers control) (m'.step answers control') := by
  cases hc with
  | eval he scope => exact hm.eval answers scope he
  | give hd =>
    obtain ⟨heap, stack, tape, opened⟩ := m
    obtain ⟨heap', stack', tape', opened'⟩ := m'
    obtain ⟨hheap, hstack, htape, hopened⟩ := hm
    cases hstack with
    | nil => exact .stop (.finished hd) ⟨hheap, .nil, htape, hopened⟩
    | @cons task task' stack stack' ht hstack =>
      have hrest : (Machine.mk heap stack tape opened).Alike named l
          ⟨heap', stack', tape', opened'⟩ := ⟨hheap, hstack, htape, hopened⟩
      exact hrest.apply hd ht

theorem run {answers : Answers} {gas : Nat} (turns : Nat) {control control' : Control}
    (hc : control.Alike named l control') :
    ∃ more, (m.run answers gas turns control).EndsAlike named more
      (m'.run answers gas turns control') := by
  induction gas generalizing turns l control control' m m' with
  | zero => exact ⟨l, hm, .failed .gasExhausted, rfl⟩
  | succ gas ih =>
    have hturn := hm.step answers hc
    generalize hs : m.step answers control = turn at hturn
    generalize hs' : m'.step answers control' = turn' at hturn
    cases hturn with
    | next hc hm =>
      rw [run_succ_of_next hs, run_succ_of_next hs']
      exact ih hm (turns + 1) hc
    | stop ho hm =>
      rw [run_succ_of_stop hs, run_succ_of_stop hs']
      exact ⟨_, hm, ho, rfl⟩

end Machine.Alike

end Inquiry
