import Inquiry.Answers
import Inquiry.Arithmetic
import Inquiry.Heap
set_option autoImplicit false

/-!
Evaluation turn by turn. A machine never recurses: what is left to do with the value of an
expression waits on its stack, so it can stop at a question and go on once there is an answer.
-/

namespace Inquiry

inductive Task where
  | binaryRight (op : BinOp) (right : Expr) (scope : Scope)
  | binaryApply (op : BinOp) (left : Datum)
  | unaryApply (op : UnaryOp)
  | logicalRight (op : LogicalOp) (right : Expr) (scope : Scope)
  | logicalApply (op : LogicalOp)
  | branch (consequent alternate : Expr) (scope : Scope)
  | branchDone (consequent : Bool)
  | access (field : String)
  | accessDone (field : String)
  | nameDone (name : String)
  | memoize (thunk : ThunkId)
  | blockDone
  | callee (args : List Expr) (scope : Scope)
  | callDone
  | complete
  /-- Goes on with the field after the given one. -/
  | recordField (record : RecordId) (field : Nat)

inductive Control where
  | eval (expr : Expr) (scope : Scope)
  | give (d : Datum)

inductive Outcome where
  | finished (d : Datum)
  | parked (question : Question)
  | failed (e : EvalError)
  deriving DecidableEq, Repr

structure Machine where
  heap : Heap
  stack : List Task
  tape : Tape
  /-- The records of the result whose fields are being completed, the innermost first. -/
  opened : List RecordId

inductive Turn where
  | next (control : Control) (m : Machine)
  | stop (outcome : Outcome) (m : Machine)

/-- Binds the declarations of a block. A function is a value at once, and sees the names of its
own block; anything else is put off. -/
def Heap.bindAll (h : Heap) (frame : FrameId) (outer : Scope) : List Stmt → Heap
  | [] => h
  | .expr _ :: rest => h.bindAll frame outer rest
  | .bind slot (.function name params body) :: rest =>
    let (id, h) := h.addClosure ⟨name, params, body, frame :: outer⟩
    (h.declare frame slot (.value (.closure id))).bindAll frame outer rest
  | .bind slot value :: rest =>
    (h.declareDelayed frame slot slot.name value (frame :: outer)).2.bindAll frame outer rest

def Heap.bindFields (h : Heap) (frame : FrameId) (outer : Scope) :
    List Field → List (String × ThunkId) × Heap
  | [] => ([], h)
  | .mk name slot value :: rest =>
    let (thunk, h) := h.declareDelayed frame slot name value (frame :: outer)
    let (fields, h) := h.bindFields frame outer rest
    ((name, thunk) :: fields, h)

def Heap.bindParams (h : Heap) (frame : FrameId) (caller : Scope) :
    List Slot → List Expr → Heap
  | param :: params, arg :: args =>
    (h.declareDelayed frame param param.name arg caller).2.bindParams frame caller params args
  | _, _ => h

def Stmt.lastExpr? : List Stmt → Option Expr
  | [] => none
  | .bind _ _ :: rest => lastExpr? rest
  | .expr e :: rest => (lastExpr? rest).or (some e)

namespace Machine

def initial (captureTrace : Bool) : Machine :=
  ⟨Heap.initial, [.complete], Tape.empty captureTrace, []⟩

def push (task : Task) : Machine → Machine
  | ⟨heap, stack, tape, opened⟩ => ⟨heap, task :: stack, tape, opened⟩

def emit (rule : Rule) : Machine → Machine
  | ⟨heap, stack, tape, opened⟩ => ⟨heap, stack, tape.emit rule, opened⟩

def fail (m : Machine) (e : EvalError) : Turn := .stop (.failed e) m

def conclude (m : Machine) (d : Datum) (rule : Summary → Rule) : Turn :=
  let value := m.heap.summary d
  .next (.give d) (m.emit (rule value))

def enterBlock (frame : FrameId) (outer : Scope) (body : List Stmt) :
    Machine → Control × Machine
  | ⟨heap, stack, tape, opened⟩ =>
    let heap := heap.bindAll frame outer body
    match Stmt.lastExpr? body with
    | some e => (.eval e (frame :: outer), ⟨heap, .blockDone :: stack, tape, opened⟩)
    | none => (.give .undefined, ⟨heap, stack, tape.emit (.block false .undefined), opened⟩)

/-- Asks for the value of a delayed expression. If it has to be evaluated first, `task` gets the
value; if it is there already, `ready` does. -/
def force (m : Machine) (id : ThunkId) (task : Task) (ready : Datum → Machine → Turn) : Turn :=
  match m.heap.thunk id with
  | ⟨label, expr, scope, state⟩ =>
    match state with
    | .forced d => ready d m
    | .forcing => m.fail (.cyclicEvaluation label)
    | .unforced =>
      match m with
      | ⟨heap, stack, tape, opened⟩ =>
        .next (.eval expr scope)
          ⟨heap.setState id .forcing, .memoize id :: task :: stack, tape, opened⟩

def evalName (m : Machine) (slot : Slot) (scope : Scope) : Turn :=
  match m.heap.lookup slot scope with
  | none => m.fail (.unboundName slot.name)
  | some (.value d) => m.conclude d (.name slot.name false)
  | some (.delayed thunk) =>
    m.force thunk (.nameDone slot.name) fun d m => m.conclude d (.name slot.name false)

def evalInput (answers : Answers) (m : Machine) (question : Question) : Turn :=
  match answers.get? question.text with
  | some answer => m.conclude answer.datum (.input question.text)
  | none => .stop (.parked question) m

def evalRecord (scope : Scope) (fields : List Field) : Machine → Turn
  | ⟨heap, stack, tape, opened⟩ =>
    let (frame, heap) := heap.addFrame
    let (fields, heap) := heap.bindFields frame scope fields
    let (id, heap) := heap.addRecord fields
    conclude ⟨heap, stack, tape, opened⟩ (.record id) .literal

def evalFunction (closure : Closure) : Machine → Turn
  | ⟨heap, stack, tape, opened⟩ =>
    let (id, heap) := heap.addClosure closure
    conclude ⟨heap, stack, tape, opened⟩ (.closure id) .literal

def evalBlock (scope : Scope) (body : List Stmt) : Machine → Turn
  | ⟨heap, stack, tape, opened⟩ =>
    let (frame, heap) := heap.addFrame
    let m : Machine := ⟨heap, stack, tape, opened⟩
    if body.isEmpty then m.fail .emptyBlock
    else
      let (control, m) := m.enterBlock frame scope body
      .next control m

def eval (answers : Answers) (m : Machine) (scope : Scope) : Expr → Turn
  | .number n => m.conclude (.number n) .literal
  | .boolean b => m.conclude (.boolean b) .literal
  | .input question => m.evalInput answers question
  | .record fields => m.evalRecord scope fields
  | .function name params body => m.evalFunction ⟨name, params, body, scope⟩
  | .name slot => m.evalName slot scope
  | .binary op left right => .next (.eval left scope) (m.push (.binaryRight op right scope))
  | .unary op operand => .next (.eval operand scope) (m.push (.unaryApply op))
  | .logical op left right => .next (.eval left scope) (m.push (.logicalRight op right scope))
  | .conditional predicate consequent alternate =>
    .next (.eval predicate scope) (m.push (.branch consequent alternate scope))
  | .access base field => .next (.eval base scope) (m.push (.access field))
  | .block body => m.evalBlock scope body
  | .call callee args => .next (.eval callee scope) (m.push (.callee args scope))

def call (callee : Datum) (args : List Expr) (caller : Scope) (m : Machine) : Turn :=
  match callee with
  | .closure id =>
    match m.heap.closure id with
    | ⟨name, params, body, scope⟩ =>
      if params.length = args.length then
        match m with
        | ⟨heap, stack, tape, opened⟩ =>
          let (frame, heap) := heap.addFrame
          .next (.eval body (frame :: scope))
            ⟨heap.bindParams frame caller params args, .callDone :: stack, tape, opened⟩
      else m.fail (.arityMismatch name params.length args.length)
  | d => m.fail (.notCallable d.category)

def completeField (m : Machine) (record : RecordId) (field : Nat) : Turn :=
  match (m.heap.record record)[field]? with
  | some (name, thunk) =>
    (m.push (.recordField record field)).force thunk .complete fun d m =>
      (m.push .complete).conclude d (.name name false)
  | none =>
    let names := m.heap.fieldNames record
    match m with
    | ⟨heap, stack, tape, opened⟩ =>
      conclude ⟨heap, stack, tape, opened.drop 1⟩ (.record record) (.record names)

/-- The field through which the record on top of the stack led on. -/
def leadingField (m : Machine) : String :=
  match m.stack with
  | .recordField parent field :: _ =>
    ((m.heap.record parent)[field]?.map Prod.fst).getD "record"
  | _ => "record"

/-- Opens a record of the result. A record that is part of itself has no finite value. -/
def completeRecord (m : Machine) (record : RecordId) : Turn :=
  if m.opened.contains record then m.fail (.cyclicEvaluation m.leadingField)
  else
    match m with
    | ⟨heap, stack, tape, opened⟩ =>
      completeField ⟨heap, stack, tape, record :: opened⟩ record 0

def readField (m : Machine) (field : String) : Datum → Turn
  | .record record =>
    match m.heap.field? record field with
    | some thunk =>
      m.force thunk (.accessDone field) fun d m => m.conclude d (.access field false)
    | none => m.fail (.missingField field)
  | d => m.fail (.typeMismatch (.access field d.category))

def apply (m : Machine) (d : Datum) : Task → Turn
  | .binaryRight op right scope => .next (.eval right scope) (m.push (.binaryApply op d))
  | .binaryApply op left =>
    match op.apply left d with
    | .ok result => m.conclude result (.binary op)
    | .error e => m.fail e
  | .unaryApply op =>
    match op.apply d with
    | .ok result => m.conclude result (.unary op)
    | .error e => m.fail e
  | .logicalRight op right scope =>
    match d.toBool (.operand op) with
    | .ok left =>
      if left = op.decider then m.conclude d (.logical op false)
      else .next (.eval right scope) (m.push (.logicalApply op))
    | .error e => m.fail e
  | .logicalApply op =>
    match d.toBool (.operand op) with
    | .ok _ => m.conclude d (.logical op true)
    | .error e => m.fail e
  | .branch consequent alternate scope =>
    match d.toBool .predicate with
    | .ok taken =>
      .next (.eval (if taken then consequent else alternate) scope) (m.push (.branchDone taken))
    | .error e => m.fail e
  | .branchDone consequent => m.conclude d (.conditional consequent)
  | .access field => m.readField field d
  | .accessDone field => m.conclude d (.access field true)
  | .nameDone name => m.conclude d (.name name true)
  | .memoize thunk =>
    match m with
    | ⟨heap, stack, tape, opened⟩ =>
      .next (.give d) ⟨heap.setState thunk (.forced d), stack, tape, opened⟩
  | .blockDone => m.conclude d (.block true)
  | .callee args scope => m.call d args scope
  | .callDone => m.conclude d .call
  | .complete =>
    match d with
    | .record record => m.completeRecord record
    | d => .next (.give d) m
  | .recordField record field => m.completeField record (field + 1)

def step (answers : Answers) (m : Machine) : Control → Turn
  | .eval expr scope => m.eval answers scope expr
  | .give d =>
    match m with
    | ⟨heap, [], tape, opened⟩ => .stop (.finished d) ⟨heap, [], tape, opened⟩
    | ⟨heap, task :: stack, tape, opened⟩ => apply ⟨heap, stack, tape, opened⟩ d task

end Machine

end Inquiry
