import Inquiry.Proofs.Machine.Move
set_option autoImplicit false

/-!
Evaluation by recursion on expressions, call by need. Operands go from left to right, what is bound
or passed is put off until its value is needed, and then kept. Nothing waits on a stack: what is
left to do is what the caller does with the value.
-/

namespace Inquiry

inductive Halt where
  | failed (e : EvalError)
  | asked (question : Question)
  deriving DecidableEq, Repr

def Halt.outcome : Halt → Outcome
  | .failed e => .failed e
  | .asked question => .parked question

namespace ByNeed

structure Store where
  heap : Heap
  tape : Tape

/-- An evaluation halts, or comes to its end in another store. It is `none` if its derivation is
higher than it is allowed to be. -/
abbrev Evaluation (α : Type) := StateT Store (ExceptT Halt Option) α

variable {α : Type}

def tooHigh : Evaluation α := fun _ => none

def fail (e : EvalError) : Evaluation α := fun _ => some (.error (.failed e))

def ask (question : Question) : Evaluation α := fun _ => some (.error (.asked question))

def read (f : Heap → α) : Evaluation α := fun s => some (.ok (f s.heap, s))

def allocate (f : Heap → α × Heap) : Evaluation α := fun s =>
  some (.ok ((f s.heap).1, ⟨(f s.heap).2, s.tape⟩))

def setState (id : ThunkId) (state : ThunkState) : Evaluation Unit := fun s =>
  some (.ok ((), ⟨s.heap.setState id state, s.tape⟩))

def conclude (d : Datum) (rule : Summary → Rule) : Evaluation Datum := fun s =>
  some (.ok (d, ⟨s.heap, s.tape.emit (rule (s.heap.summary d))⟩))

def ofExcept : Except EvalError α → Evaluation α
  | .ok a => pure a
  | .error e => fail e

/-- The value of a delayed expression, and whether this is where it was evaluated. -/
def force (evaluate : Scope → Expr → Evaluation Datum) (id : ThunkId) :
    Evaluation (Datum × Bool) := do
  let thunk ← read fun h => h.thunk id
  match thunk.state with
  | .forced d => return (d, false)
  | .forcing => fail (.cyclicEvaluation thunk.label)
  | .unforced =>
    setState id .forcing
    let d ← evaluate thunk.scope thunk.expr
    setState id (.forced d)
    return (d, true)

theorem bind_apply {β : Type} (x : Evaluation α) (f : α → Evaluation β) (s : Store) :
    (x >>= f) s = match x s with
      | some (.ok (a, s')) => f a s'
      | some (.error halt) => some (.error halt)
      | none => none := by
  show ExceptT.bind (x s) (fun p => f p.1 p.2) = _
  unfold ExceptT.bind ExceptT.mk
  cases x s with
  | none => rfl
  | some result => cases result <;> rfl

section Force

variable {evaluate : Scope → Expr → Evaluation Datum} {id : ThunkId} {s : Store}

theorem force_of_forced {d : Datum} (h : (s.heap.thunk id).state = .forced d) :
    force evaluate id s = some (.ok ((d, false), s)) := by
  simp only [force, bind_apply, read, h]
  rfl

theorem force_of_forcing (h : (s.heap.thunk id).state = .forcing) :
    force evaluate id s =
      some (.error (.failed (.cyclicEvaluation (s.heap.thunk id).label))) := by
  simp only [force, bind_apply, read, h]
  rfl

theorem force_of_unforced (h : (s.heap.thunk id).state = .unforced) :
    force evaluate id s = (do
      let d ← evaluate (s.heap.thunk id).scope (s.heap.thunk id).expr
      setState id (.forced d)
      return (d, true) : Evaluation (Datum × Bool)) ⟨s.heap.setState id .forcing, s.tape⟩ := by
  simp only [force, bind_apply, read, h]
  rfl

end Force

def evaluateBody (evaluate : Scope → Expr → Evaluation Datum) (scope : Scope)
    (body : List Stmt) : Evaluation Datum :=
  match Stmt.lastExpr? body with
  | some e => do
    let d ← evaluate scope e
    conclude d (.block true)
  | none => conclude .undefined (.block false)

def evaluate (answers : Answers) : Nat → Scope → Expr → Evaluation Datum
  | 0, _, _ => tooHigh
  | height + 1, scope, e =>
    match e with
    | .number n => conclude (.number n) .literal
    | .boolean b => conclude (.boolean b) .literal
    | .input question =>
      match answers.get? question.text with
      | some answer => conclude answer.datum (.input question.text)
      | none => ask question
    | .record fields => do
      let id ← allocate fun h => h.openRecord scope fields
      conclude (.record id) .literal
    | .function name params body => do
      let id ← allocate fun h => h.addClosure ⟨name, params, body, scope⟩
      conclude (.closure id) .literal
    | .name slot => do
      match ← read fun h => h.lookup slot scope with
      | none => fail (.unboundName slot.name)
      | some (.value d) => conclude d (.name slot.name false)
      | some (.delayed id) =>
        let found ← force (evaluate answers height) id
        conclude found.1 (.name slot.name found.2)
    | .binary op left right => do
      let l ← evaluate answers height scope left
      let r ← evaluate answers height scope right
      let d ← ofExcept (op.apply l r)
      conclude d (.binary op)
    | .unary op operand => do
      let d ← evaluate answers height scope operand
      let result ← ofExcept (op.apply d)
      conclude result (.unary op)
    | .logical op left right => do
      let l ← evaluate answers height scope left
      let b ← ofExcept (l.toBool (.operand op))
      if b = op.decider then conclude l (.logical op false)
      else
        let r ← evaluate answers height scope right
        let _ ← ofExcept (r.toBool (.operand op))
        conclude r (.logical op true)
    | .conditional predicate consequent alternate => do
      let p ← evaluate answers height scope predicate
      let taken ← ofExcept (p.toBool .predicate)
      let d ← evaluate answers height scope (if taken then consequent else alternate)
      conclude d (.conditional taken)
    | .access base field => do
      match ← evaluate answers height scope base with
      | .record record =>
        match ← read fun h => h.field? record field with
        | some id =>
          let found ← force (evaluate answers height) id
          conclude found.1 (.access field found.2)
        | none => fail (.missingField field)
      | d => fail (.typeMismatch (.access field d.category))
    | .block body =>
      if body.isEmpty then fail .emptyBlock
      else do
        let inner ← allocate fun h => h.openBlock scope body
        evaluateBody (evaluate answers height) inner body
    | .call callee args => do
      match ← evaluate answers height scope callee with
      | .closure id =>
        let closure ← read fun h => h.closure id
        if closure.params.length = args.length then
          let inner ← allocate fun h => h.openCall closure args scope
          let d ← evaluate answers height inner closure.body
          conclude d .call
        else fail (.arityMismatch closure.name closure.params.length args.length)
      | d => fail (.notCallable d.category)

def completeField (evaluate : Scope → Expr → Evaluation Datum)
    (complete : String → Datum → Evaluation Unit) (field : String × ThunkId) :
    Evaluation Unit := do
  let found ← force evaluate field.2
  if found.2 then complete field.1 found.1
  else
    let d ← conclude found.1 (.name field.1 false)
    complete field.1 d

/-- Gives values to all fields of a result, one after the other, and to theirs. The records in
`opened` have fields that wait for it; `field` is the one through which it was reached. -/
def complete (answers : Answers) : Nat → List RecordId → String → Datum → Evaluation Unit
  | 0, _, _, _ => tooHigh
  | height + 1, opened, field, d =>
    match d with
    | .record record =>
      if opened.contains record then fail (.cyclicEvaluation field)
      else do
        let fields ← read fun h => h.record record
        fields.forM
          (completeField (evaluate answers height) (complete answers height (record :: opened)))
        let _ ← conclude (.record record) (.record (fields.map Prod.fst))
    | _ => return

def evaluateProgram (answers : Answers) (height : Nat) (program : Program) (captureTrace : Bool) :
    Option (Except Halt (Datum × Store)) :=
  if program.body.isEmpty then some (.error (.failed .emptyProgram))
  else
    let heap := Heap.initial.bindAll Heap.globalFrame [] program.body
    (do
      let d ← evaluateBody (evaluate answers height) [Heap.globalFrame] program.body
      complete answers height [] "record" d
      return d : Evaluation Datum) ⟨heap, Tape.empty captureTrace⟩

end ByNeed

end Inquiry
