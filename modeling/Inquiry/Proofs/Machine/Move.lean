import Inquiry.Machine
set_option autoImplicit false

namespace Inquiry

namespace Heap

def openRecord (h : Heap) (scope : Scope) (fields : List Field) : RecordId × Heap :=
  let (frame, h) := h.addFrame
  let (fields, h) := h.bindFields frame scope fields
  h.addRecord fields

def openBlock (h : Heap) (scope : Scope) (body : List Stmt) : Scope × Heap :=
  let (frame, h) := h.addFrame
  (frame :: scope, h.bindAll frame scope body)

def openCall (h : Heap) (closure : Closure) (args : List Expr) (caller : Scope) : Scope × Heap :=
  let (frame, h) := h.addFrame
  (frame :: closure.scope, h.bindParams frame caller closure.params args)

end Heap

namespace Machine

def withHeap (m : Machine) (heap : Heap) : Machine := { m with heap }

def write (m : Machine) (d : Datum) (rule : Summary → Rule) : Machine :=
  m.emit (rule (m.heap.summary d))

/-- Starts on a delayed expression, whose value is kept before `task` gets it. -/
def enter (m : Machine) (id : ThunkId) (task : Task) : Machine :=
  ((m.withHeap (m.heap.setState id .forcing)).push task).push (.memoize id)

def openResult (m : Machine) (record : RecordId) : Machine :=
  { m with opened := record :: m.opened }

def closeResult (m : Machine) : Machine := { m with opened := m.opened.drop 1 }

@[simp] theorem push_heap (m : Machine) (task : Task) : (m.push task).heap = m.heap := rfl
@[simp] theorem push_stack (m : Machine) (task : Task) :
    (m.push task).stack = task :: m.stack := rfl
@[simp] theorem push_tape (m : Machine) (task : Task) : (m.push task).tape = m.tape := rfl

@[simp] theorem withHeap_heap (m : Machine) (heap : Heap) : (m.withHeap heap).heap = heap := rfl
@[simp] theorem withHeap_tape (m : Machine) (heap : Heap) :
    (m.withHeap heap).tape = m.tape := rfl

end Machine

/-- What is done about a field of an open record, or about the record after its last field. -/
inductive FieldMove (record : RecordId) (i : Nat) (m : Machine) : Turn → Prop where
  | ready {name : String} {id : ThunkId} {d : Datum}
      (hf : (m.heap.record record)[i]? = some (name, id))
      (hs : (m.heap.thunk id).state = .forced d) :
      FieldMove record i m (.next (.give d)
        (((m.push (.recordField record i)).push .complete).write d (.name name false)))
  | cyclic {name : String} {id : ThunkId}
      (hf : (m.heap.record record)[i]? = some (name, id))
      (hs : (m.heap.thunk id).state = .forcing) :
      FieldMove record i m ((m.push (.recordField record i)).fail
        (.cyclicEvaluation (m.heap.thunk id).label))
  | start {name : String} {id : ThunkId}
      (hf : (m.heap.record record)[i]? = some (name, id))
      (hs : (m.heap.thunk id).state = .unforced) :
      FieldMove record i m (.next (.eval (m.heap.thunk id).expr (m.heap.thunk id).scope)
        ((m.push (.recordField record i)).enter id .complete))
  | close (hf : (m.heap.record record)[i]? = none) :
      FieldMove record i m (.next (.give (.record record))
        (m.closeResult.write (.record record) (.record (m.heap.fieldNames record))))

/-- The turns a machine can take. A machine that hands a value over has the task that gets it on
top of its stack, so the moves of tasks start from a machine with the task pushed. -/
inductive Move (answers : Answers) : Control → Machine → Turn → Prop where
  | number {m : Machine} {scope : Scope} {n : Int64} :
      Move answers (.eval (.number n) scope) m
        (.next (.give (.number n)) (m.write (.number n) .literal))
  | boolean {m : Machine} {scope : Scope} {b : Bool} :
      Move answers (.eval (.boolean b) scope) m
        (.next (.give (.boolean b)) (m.write (.boolean b) .literal))
  | answered {m : Machine} {scope : Scope} {question : Question} {answer : Answer}
      (ha : answers.get? question.text = some answer) :
      Move answers (.eval (.input question) scope) m
        (.next (.give answer.datum) (m.write answer.datum (.input question.text)))
  | asked {m : Machine} {scope : Scope} {question : Question}
      (ha : answers.get? question.text = none) :
      Move answers (.eval (.input question) scope) m (.stop (.parked question) m)
  | record {m : Machine} {scope : Scope} {fields : List Field} {id : RecordId} {heap : Heap}
      (ho : m.heap.openRecord scope fields = (id, heap)) :
      Move answers (.eval (.record fields) scope) m
        (.next (.give (.record id)) ((m.withHeap heap).write (.record id) .literal))
  | function {m : Machine} {scope : Scope} {name : Option String} {params : List Slot}
      {body : Expr} {id : ClosureId} {heap : Heap}
      (ho : m.heap.addClosure ⟨name, params, body, scope⟩ = (id, heap)) :
      Move answers (.eval (.function name params body) scope) m
        (.next (.give (.closure id)) ((m.withHeap heap).write (.closure id) .literal))
  | unbound {m : Machine} {scope : Scope} {slot : Slot}
      (hl : m.heap.lookup slot scope = none) :
      Move answers (.eval (.name slot) scope) m (m.fail (.unboundName slot.name))
  | nameBound {m : Machine} {scope : Scope} {slot : Slot} {d : Datum}
      (hl : m.heap.lookup slot scope = some (.value d)) :
      Move answers (.eval (.name slot) scope) m
        (.next (.give d) (m.write d (.name slot.name false)))
  | nameReady {m : Machine} {scope : Scope} {slot : Slot} {id : ThunkId} {d : Datum}
      (hl : m.heap.lookup slot scope = some (.delayed id))
      (hs : (m.heap.thunk id).state = .forced d) :
      Move answers (.eval (.name slot) scope) m
        (.next (.give d) (m.write d (.name slot.name false)))
  | nameCyclic {m : Machine} {scope : Scope} {slot : Slot} {id : ThunkId}
      (hl : m.heap.lookup slot scope = some (.delayed id))
      (hs : (m.heap.thunk id).state = .forcing) :
      Move answers (.eval (.name slot) scope) m
        (m.fail (.cyclicEvaluation (m.heap.thunk id).label))
  | nameStart {m : Machine} {scope : Scope} {slot : Slot} {id : ThunkId}
      (hl : m.heap.lookup slot scope = some (.delayed id))
      (hs : (m.heap.thunk id).state = .unforced) :
      Move answers (.eval (.name slot) scope) m
        (.next (.eval (m.heap.thunk id).expr (m.heap.thunk id).scope)
          (m.enter id (.nameDone slot.name)))
  | binary {m : Machine} {scope : Scope} {op : BinOp} {left right : Expr} :
      Move answers (.eval (.binary op left right) scope) m
        (.next (.eval left scope) (m.push (.binaryRight op right scope)))
  | unary {m : Machine} {scope : Scope} {op : UnaryOp} {operand : Expr} :
      Move answers (.eval (.unary op operand) scope) m
        (.next (.eval operand scope) (m.push (.unaryApply op)))
  | logical {m : Machine} {scope : Scope} {op : LogicalOp} {left right : Expr} :
      Move answers (.eval (.logical op left right) scope) m
        (.next (.eval left scope) (m.push (.logicalRight op right scope)))
  | conditional {m : Machine} {scope : Scope} {predicate consequent alternate : Expr} :
      Move answers (.eval (.conditional predicate consequent alternate) scope) m
        (.next (.eval predicate scope) (m.push (.branch consequent alternate scope)))
  | access {m : Machine} {scope : Scope} {base : Expr} {field : String} :
      Move answers (.eval (.access base field) scope) m
        (.next (.eval base scope) (m.push (.access field)))
  | call {m : Machine} {scope : Scope} {callee : Expr} {args : List Expr} :
      Move answers (.eval (.call callee args) scope) m
        (.next (.eval callee scope) (m.push (.callee args scope)))
  | blockEmpty {m : Machine} {scope : Scope} :
      Move answers (.eval (.block []) scope) m
        ((m.withHeap m.heap.addFrame.2).fail .emptyBlock)
  | block {m : Machine} {scope inner : Scope} {body : List Stmt} {heap : Heap} {e : Expr}
      (ho : m.heap.openBlock scope body = (inner, heap)) (he : Stmt.lastExpr? body = some e) :
      Move answers (.eval (.block body) scope) m
        (.next (.eval e inner) ((m.withHeap heap).push .blockDone))
  | blockOfNames {m : Machine} {scope inner : Scope} {body : List Stmt} {heap : Heap}
      (hb : body ≠ []) (ho : m.heap.openBlock scope body = (inner, heap))
      (he : Stmt.lastExpr? body = none) :
      Move answers (.eval (.block body) scope) m
        (.next (.give .undefined) ((m.withHeap heap).write .undefined (.block false)))
  | finished {m : Machine} {d : Datum} (hm : m.stack = []) :
      Move answers (.give d) m (.stop (.finished d) m)
  | binaryRight {m : Machine} {d : Datum} {op : BinOp} {right : Expr} {scope : Scope} :
      Move answers (.give d) (m.push (.binaryRight op right scope))
        (.next (.eval right scope) (m.push (.binaryApply op d)))
  | binaryApply {m : Machine} {d left result : Datum} {op : BinOp}
      (hr : op.apply left d = .ok result) :
      Move answers (.give d) (m.push (.binaryApply op left))
        (.next (.give result) (m.write result (.binary op)))
  | binaryFailed {m : Machine} {d left : Datum} {op : BinOp} {e : EvalError}
      (hr : op.apply left d = .error e) :
      Move answers (.give d) (m.push (.binaryApply op left)) (m.fail e)
  | unaryApply {m : Machine} {d result : Datum} {op : UnaryOp} (hr : op.apply d = .ok result) :
      Move answers (.give d) (m.push (.unaryApply op))
        (.next (.give result) (m.write result (.unary op)))
  | unaryFailed {m : Machine} {d : Datum} {op : UnaryOp} {e : EvalError}
      (hr : op.apply d = .error e) :
      Move answers (.give d) (m.push (.unaryApply op)) (m.fail e)
  | logicalDecided {m : Machine} {op : LogicalOp} {right : Expr} {scope : Scope} :
      Move answers (.give (.boolean op.decider)) (m.push (.logicalRight op right scope))
        (.next (.give (.boolean op.decider)) (m.write (.boolean op.decider) (.logical op false)))
  | logicalRight {m : Machine} {op : LogicalOp} {right : Expr} {scope : Scope} :
      Move answers (.give (.boolean !op.decider)) (m.push (.logicalRight op right scope))
        (.next (.eval right scope) (m.push (.logicalApply op)))
  | logicalRightFailed {m : Machine} {d : Datum} {op : LogicalOp} {right : Expr} {scope : Scope}
      {e : EvalError} (hb : d.toBool (.operand op) = .error e) :
      Move answers (.give d) (m.push (.logicalRight op right scope)) (m.fail e)
  | logicalApply {m : Machine} {op : LogicalOp} {b : Bool} :
      Move answers (.give (.boolean b)) (m.push (.logicalApply op))
        (.next (.give (.boolean b)) (m.write (.boolean b) (.logical op true)))
  | logicalFailed {m : Machine} {d : Datum} {op : LogicalOp} {e : EvalError}
      (hb : d.toBool (.operand op) = .error e) :
      Move answers (.give d) (m.push (.logicalApply op)) (m.fail e)
  | branch {m : Machine} {taken : Bool} {consequent alternate : Expr} {scope : Scope} :
      Move answers (.give (.boolean taken)) (m.push (.branch consequent alternate scope))
        (.next (.eval (if taken then consequent else alternate) scope)
          (m.push (.branchDone taken)))
  | branchFailed {m : Machine} {d : Datum} {consequent alternate : Expr} {scope : Scope}
      {e : EvalError} (hb : d.toBool .predicate = .error e) :
      Move answers (.give d) (m.push (.branch consequent alternate scope)) (m.fail e)
  | branchDone {m : Machine} {d : Datum} {consequent : Bool} :
      Move answers (.give d) (m.push (.branchDone consequent))
        (.next (.give d) (m.write d (.conditional consequent)))
  | notRecord {m : Machine} {d : Datum} {field : String} (hd : ∀ record, d ≠ .record record) :
      Move answers (.give d) (m.push (.access field))
        (m.fail (.typeMismatch (.access field d.category)))
  | missingField {m : Machine} {record : RecordId} {field : String}
      (hf : m.heap.field? record field = none) :
      Move answers (.give (.record record)) (m.push (.access field)) (m.fail (.missingField field))
  | accessReady {m : Machine} {record : RecordId} {field : String} {id : ThunkId} {d : Datum}
      (hf : m.heap.field? record field = some id) (hs : (m.heap.thunk id).state = .forced d) :
      Move answers (.give (.record record)) (m.push (.access field))
        (.next (.give d) (m.write d (.access field false)))
  | accessCyclic {m : Machine} {record : RecordId} {field : String} {id : ThunkId}
      (hf : m.heap.field? record field = some id) (hs : (m.heap.thunk id).state = .forcing) :
      Move answers (.give (.record record)) (m.push (.access field))
        (m.fail (.cyclicEvaluation (m.heap.thunk id).label))
  | accessStart {m : Machine} {record : RecordId} {field : String} {id : ThunkId}
      (hf : m.heap.field? record field = some id) (hs : (m.heap.thunk id).state = .unforced) :
      Move answers (.give (.record record)) (m.push (.access field))
        (.next (.eval (m.heap.thunk id).expr (m.heap.thunk id).scope)
          (m.enter id (.accessDone field)))
  | accessDone {m : Machine} {d : Datum} {field : String} :
      Move answers (.give d) (m.push (.accessDone field))
        (.next (.give d) (m.write d (.access field true)))
  | nameDone {m : Machine} {d : Datum} {name : String} :
      Move answers (.give d) (m.push (.nameDone name))
        (.next (.give d) (m.write d (.name name true)))
  | memoize {m : Machine} {d : Datum} {id : ThunkId} :
      Move answers (.give d) (m.push (.memoize id))
        (.next (.give d) (m.withHeap (m.heap.setState id (.forced d))))
  | blockDone {m : Machine} {d : Datum} :
      Move answers (.give d) (m.push .blockDone) (.next (.give d) (m.write d (.block true)))
  | notCallable {m : Machine} {d : Datum} {args : List Expr} {scope : Scope}
      (hd : ∀ id, d ≠ .closure id) :
      Move answers (.give d) (m.push (.callee args scope)) (m.fail (.notCallable d.category))
  | arityMismatch {m : Machine} {id : ClosureId} {args : List Expr} {scope : Scope}
      (hn : (m.heap.closure id).params.length ≠ args.length) :
      Move answers (.give (.closure id)) (m.push (.callee args scope))
        (m.fail (.arityMismatch (m.heap.closure id).name (m.heap.closure id).params.length
          args.length))
  | callee {m : Machine} {id : ClosureId} {args : List Expr} {scope inner : Scope} {heap : Heap}
      (hn : (m.heap.closure id).params.length = args.length)
      (ho : m.heap.openCall (m.heap.closure id) args scope = (inner, heap)) :
      Move answers (.give (.closure id)) (m.push (.callee args scope))
        (.next (.eval (m.heap.closure id).body inner) ((m.withHeap heap).push .callDone))
  | callDone {m : Machine} {d : Datum} :
      Move answers (.give d) (m.push .callDone) (.next (.give d) (m.write d .call))
  | completePlain {m : Machine} {d : Datum} (hd : ∀ record, d ≠ .record record) :
      Move answers (.give d) (m.push .complete) (.next (.give d) m)
  | recordCyclic {m : Machine} {record : RecordId} (ho : record ∈ m.opened) :
      Move answers (.give (.record record)) (m.push .complete)
        (m.fail (.cyclicEvaluation m.leadingField))
  | completeRecord {m : Machine} {record : RecordId} {turn : Turn} (ho : record ∉ m.opened)
      (hf : FieldMove record 0 (m.openResult record) turn) :
      Move answers (.give (.record record)) (m.push .complete) turn
  | recordField {m : Machine} {d : Datum} {record : RecordId} {i : Nat} {turn : Turn}
      (hf : FieldMove record (i + 1) m turn) :
      Move answers (.give d) (m.push (.recordField record i)) turn

namespace Machine

theorem force_of_forced {m : Machine} {id : ThunkId} {task : Task}
    {ready : Datum → Machine → Turn} {d : Datum} (hs : (m.heap.thunk id).state = .forced d) :
    m.force id task ready = ready d m := by simp [force, hs]

theorem force_of_forcing {m : Machine} {id : ThunkId} {task : Task}
    {ready : Datum → Machine → Turn} (hs : (m.heap.thunk id).state = .forcing) :
    m.force id task ready = m.fail (.cyclicEvaluation (m.heap.thunk id).label) := by
  simp [force, hs]

theorem force_of_unforced {m : Machine} {id : ThunkId} {task : Task}
    {ready : Datum → Machine → Turn} (hs : (m.heap.thunk id).state = .unforced) :
    m.force id task ready =
      .next (.eval (m.heap.thunk id).expr (m.heap.thunk id).scope) (m.enter id task) := by
  simp [force, hs, enter, push, withHeap]

theorem completeField_move (m : Machine) (record : RecordId) (i : Nat) :
    FieldMove record i m (m.completeField record i) := by
  cases hf : (m.heap.record record)[i]? with
  | none =>
    simp only [completeField, hf]
    exact .close hf
  | some field =>
    obtain ⟨name, id⟩ := field
    simp only [completeField, hf]
    cases hs : (m.heap.thunk id).state with
    | unforced =>
      rw [force_of_unforced (by exact hs)]
      exact .start hf hs
    | forcing =>
      rw [force_of_forcing (by exact hs)]
      exact .cyclic hf hs
    | forced d =>
      rw [force_of_forced (by exact hs)]
      exact .ready hf hs

theorem evalName_move (answers : Answers) (m : Machine) (slot : Slot) (scope : Scope) :
    Move answers (.eval (.name slot) scope) m (m.evalName slot scope) := by
  cases hl : m.heap.lookup slot scope with
  | none =>
    simp only [evalName, hl]
    exact .unbound hl
  | some binding =>
    cases binding with
    | value d =>
      simp only [evalName, hl]
      exact .nameBound hl
    | delayed id =>
      simp only [evalName, hl]
      cases hs : (m.heap.thunk id).state with
      | unforced =>
        rw [force_of_unforced hs]
        exact .nameStart hl hs
      | forcing =>
        rw [force_of_forcing hs]
        exact .nameCyclic hl hs
      | forced d =>
        rw [force_of_forced hs]
        exact .nameReady hl hs

theorem evalBlock_move (answers : Answers) (m : Machine) (scope : Scope) (body : List Stmt) :
    Move answers (.eval (.block body) scope) m (m.evalBlock scope body) := by
  cases body with
  | nil => exact .blockEmpty
  | cons stmt rest =>
    cases he : Stmt.lastExpr? (stmt :: rest) with
    | none =>
      simp only [evalBlock, enterBlock, he, List.isEmpty_cons]
      exact .blockOfNames (by simp) rfl he
    | some e =>
      simp only [evalBlock, enterBlock, he, List.isEmpty_cons]
      exact .block rfl he

theorem eval_move (answers : Answers) (m : Machine) (scope : Scope) (e : Expr) :
    Move answers (.eval e scope) m (m.eval answers scope e) := by
  cases e with
  | number n => exact .number
  | boolean b => exact .boolean
  | input question =>
    cases ha : answers.get? question.text with
    | none =>
      simp only [eval, evalInput, ha]
      exact .asked ha
    | some answer =>
      simp only [eval, evalInput, ha]
      exact .answered ha
  | record fields => exact .record rfl
  | function name params body => exact .function rfl
  | name slot => exact evalName_move answers m slot scope
  | binary op left right => exact .binary
  | unary op operand => exact .unary
  | logical op left right => exact .logical
  | conditional predicate consequent alternate => exact .conditional
  | access base field => exact .access
  | block body => exact evalBlock_move answers m scope body
  | call callee args => exact .call

theorem readField_move (answers : Answers) (m : Machine) (field : String) (d : Datum) :
    Move answers (.give d) (m.push (.access field)) (m.readField field d) := by
  cases d with
  | record record =>
    cases hf : m.heap.field? record field with
    | none =>
      simp only [readField, hf]
      exact .missingField hf
    | some id =>
      simp only [readField, hf]
      cases hs : (m.heap.thunk id).state with
      | unforced =>
        rw [force_of_unforced hs]
        exact .accessStart hf hs
      | forcing =>
        rw [force_of_forcing hs]
        exact .accessCyclic hf hs
      | forced d =>
        rw [force_of_forced hs]
        exact .accessReady hf hs
  | _ => exact .notRecord (by simp)

theorem call_move (answers : Answers) (m : Machine) (d : Datum) (args : List Expr)
    (scope : Scope) :
    Move answers (.give d) (m.push (.callee args scope)) (m.call d args scope) := by
  cases d with
  | closure id =>
    by_cases hn : (m.heap.closure id).params.length = args.length
    · simp only [call, hn]
      exact .callee hn rfl
    · simp only [call, hn]
      exact .arityMismatch hn
  | _ => exact .notCallable (by simp)

theorem completeRecord_move (answers : Answers) (m : Machine) (record : RecordId) :
    Move answers (.give (.record record)) (m.push .complete) (m.completeRecord record) := by
  by_cases ho : record ∈ m.opened
  · have hc : m.opened.contains record = true := by simpa using ho
    simp only [completeRecord, hc]
    exact .recordCyclic ho
  · have hc : m.opened.contains record = false := by simpa using ho
    simp only [completeRecord, hc]
    exact .completeRecord ho (completeField_move (m.openResult record) record 0)

theorem apply_move (answers : Answers) (m : Machine) (d : Datum) (task : Task) :
    Move answers (.give d) (m.push task) (m.apply d task) := by
  cases task with
  | binaryRight op right scope => exact .binaryRight
  | binaryApply op left =>
    cases hr : op.apply left d with
    | error e =>
      simp only [apply, hr]
      exact .binaryFailed hr
    | ok result =>
      simp only [apply, hr]
      exact .binaryApply hr
  | unaryApply op =>
    cases hr : op.apply d with
    | error e =>
      simp only [apply, hr]
      exact .unaryFailed hr
    | ok result =>
      simp only [apply, hr]
      exact .unaryApply hr
  | logicalRight op right scope =>
    cases d with
    | boolean left =>
      by_cases hd : left = op.decider
      · subst hd
        simp only [apply, Datum.toBool]
        exact .logicalDecided
      · obtain rfl : left = !op.decider := Bool.eq_not.mpr hd
        simp only [apply, Datum.toBool, hd]
        exact .logicalRight
    | _ => exact .logicalRightFailed rfl
  | logicalApply op =>
    cases d with
    | boolean b => exact .logicalApply
    | _ => exact .logicalFailed rfl
  | branch consequent alternate scope =>
    cases d with
    | boolean taken => exact .branch
    | _ => exact .branchFailed rfl
  | branchDone consequent => exact .branchDone
  | access field => exact readField_move answers m field d
  | accessDone field => exact .accessDone
  | nameDone name => exact .nameDone
  | memoize id => exact .memoize
  | blockDone => exact .blockDone
  | callee args scope => exact call_move answers m d args scope
  | callDone => exact .callDone
  | complete =>
    cases d with
    | record record => exact completeRecord_move answers m record
    | _ => exact .completePlain (by simp)
  | recordField record i => exact .recordField (completeField_move m record (i + 1))

theorem step_move (answers : Answers) (m : Machine) (control : Control) :
    Move answers control m (m.step answers control) := by
  cases control with
  | eval e scope => exact eval_move answers m scope e
  | give d =>
    obtain ⟨heap, stack, tape, opened⟩ := m
    cases stack with
    | nil => exact .finished rfl
    | cons task stack => exact apply_move answers ⟨heap, stack, tape, opened⟩ d task

theorem move_of_step {answers : Answers} {m : Machine} {control : Control} {turn : Turn}
    (h : m.step answers control = turn) : Move answers control m turn :=
  h ▸ step_move answers m control

theorem step_eq_parked_iff {answers : Answers} {m m' : Machine} {control : Control}
    {question : Question} :
    m.step answers control = .stop (.parked question) m' ↔
      ∃ scope, control = .eval (.input question) scope ∧
        answers.get? question.text = none ∧ m' = m := by
  constructor
  · intro h
    cases move_of_step h with
    | asked ha => exact ⟨_, rfl, ha, rfl⟩
    | completeRecord _ hf => cases hf
    | recordField hf => cases hf
  · rintro ⟨scope, rfl, ha, rfl⟩
    simp [step, eval, evalInput, ha]

end Machine

end Inquiry
