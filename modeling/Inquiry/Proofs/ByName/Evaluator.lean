import Inquiry.Proofs.ByNeed.Evaluator
set_option autoImplicit false

/-!
Evaluation without a store, call by name. A name stands for an expression and the environment that
it is read in, and every reading evaluates the expression anew. Nothing is kept, so nobody notices
that an expression is needed for its own value: it just has none.
-/

namespace Inquiry

namespace ByName

inductive Env where
  | nil
  | block (body : List Stmt) (outer : Env)
  | record (fields : List Field) (outer : Env)
  | call (params : List Slot) (args : List Expr) (caller outer : Env)

namespace Env

def entries : Env → List (Slot × Expr)
  | nil => []
  | block body _ => body.filterMap fun
    | .bind slot value => some (slot, value)
    | .expr _ => none
  | record fields _ => fields.map fun field => (field.slot, field.value)
  | call params args _ _ => params.zip args

/-- The environment that the innermost bindings are read in. Arguments see the names of the
caller, anything else sees its own neighbours. -/
def home : Env → Env
  | call _ _ caller _ => caller
  | env => env

def outer : Env → Env
  | nil => nil
  | block _ outer | record _ outer | call _ _ _ outer => outer

end Env

def bound? (slot : Slot) : List (Slot × Expr) → Option Expr
  | [] => none
  | (other, value) :: rest =>
    (bound? slot rest).or (if other.id = slot.id then some value else none)

namespace Env

def own (env : Env) (slot : Slot) : Option (Expr × Env) :=
  (bound? slot env.entries).map fun value => (value, env.home)

def lookup (slot : Slot) : Env → Option (Expr × Env)
  | nil => none
  | block body outer => ((block body outer).own slot).or (outer.lookup slot)
  | record fields outer => ((record fields outer).own slot).or (outer.lookup slot)
  | call params args caller outer =>
    ((call params args caller outer).own slot).or (outer.lookup slot)

end Env

/-- A value into whose fields nobody has looked. -/
inductive Form where
  | number (n : Int64)
  | boolean (b : Bool)
  | record (fields : List Field) (env : Env)
  | closure (name : Option String) (params : List Slot) (body : Expr) (env : Env)
  | undefined

namespace Form

/-- What an operator sees of a value. Of a record or a closure that is only what sort it is. -/
def operand : Form → Datum
  | number n => .number n
  | boolean b => .boolean b
  | record _ _ => .record ⟨0⟩
  | closure _ _ _ _ => .closure ⟨0⟩
  | undefined => .undefined

def ofResult : Datum → Form
  | .number n => number n
  | .boolean b => boolean b
  | _ => undefined

end Form

/-- An evaluation halts, or comes to its end. It is `none` if its derivation is higher than it is
allowed to be. -/
abbrev Evaluation (α : Type) := ExceptT Halt Option α

variable {α β : Type}

def tooHigh : Evaluation α := (none : Option (Except Halt α))

def halt (h : Halt) : Evaluation α := (some (.error h) : Option (Except Halt α))

def ofExcept : Except EvalError α → Evaluation α
  | .ok a => pure a
  | .error e => halt (.failed e)

def evaluateBody (evaluate : Env → Expr → Evaluation Form) (inner : Env) (body : List Stmt) :
    Evaluation Form :=
  match Stmt.lastExpr? body with
  | some e => evaluate inner e
  | none => return .undefined

def evaluate (answers : Answers) : Nat → Env → Expr → Evaluation Form
  | 0, _, _ => tooHigh
  | height + 1, env, e =>
    match e with
    | .number n => return .number n
    | .boolean b => return .boolean b
    | .input question =>
      match answers.get? question.text with
      | some answer => return .ofResult answer.datum
      | none => halt (.asked question)
    | .record fields => return .record fields env
    | .function name params body => return .closure name params body env
    | .name slot =>
      match env.lookup slot with
      | some (value, home) => evaluate answers height home value
      | none => halt (.failed (.unboundName slot.name))
    | .binary op left right => do
      let l ← evaluate answers height env left
      let r ← evaluate answers height env right
      let d ← ofExcept (op.apply l.operand r.operand)
      return .ofResult d
    | .unary op operand => do
      let f ← evaluate answers height env operand
      let d ← ofExcept (op.apply f.operand)
      return .ofResult d
    | .logical op left right => do
      let l ← evaluate answers height env left
      let b ← ofExcept (l.operand.toBool (.operand op))
      if b = op.decider then return l
      else
        let r ← evaluate answers height env right
        let _ ← ofExcept (r.operand.toBool (.operand op))
        return r
    | .conditional predicate consequent alternate => do
      let p ← evaluate answers height env predicate
      let taken ← ofExcept (p.operand.toBool .predicate)
      evaluate answers height env (if taken then consequent else alternate)
    | .access base field => do
      match ← evaluate answers height env base with
      | .record fields outer =>
        match fields.find? fun f => f.name == field with
        | some f => evaluate answers height (.record fields outer) f.value
        | none => halt (.failed (.missingField field))
      | f => halt (.failed (.typeMismatch (.access field f.operand.category)))
    | .block body =>
      if body.isEmpty then halt (.failed .emptyBlock)
      else evaluateBody (evaluate answers height) (.block body env) body
    | .call callee args => do
      match ← evaluate answers height env callee with
      | .closure name params body outer =>
        if params.length = args.length then
          evaluate answers height (.call params args env outer) body
        else halt (.failed (.arityMismatch name params.length args.length))
      | f => halt (.failed (.notCallable f.operand.category))

def completeField (evaluate : Env → Expr → Evaluation Form)
    (complete : Form → Evaluation Value) (inner : Env) (field : Field) :
    Evaluation (String × Value) := do
  let form ← evaluate inner field.value
  let v ← complete form
  return (field.name, v)

def complete (answers : Answers) : Nat → Form → Evaluation Value
  | 0, _ => tooHigh
  | height + 1, form =>
    match form with
    | .number n => return .number n
    | .boolean b => return .boolean b
    | .record fields env => do
      let shown ← fields.mapM
        (completeField (evaluate answers height) (complete answers height) (.record fields env))
      return .record (Fields.ofList shown)
    | .closure name _ _ _ => return .function name
    | .undefined => return .undefined

def evaluateProgram (answers : Answers) (height : Nat) (program : Program) :
    Option (Except Halt Value) :=
  if program.body.isEmpty then some (.error (.failed .emptyProgram))
  else
    (do
      let form ← evaluateBody (evaluate answers height) (.block program.body .nil) program.body
      complete answers height form : Evaluation Value)

theorem bind_eq (x : Evaluation α) (f : α → Evaluation β) :
    x >>= f = match x with
      | some (.ok a) => f a
      | some (.error h) => halt h
      | none => tooHigh := by
  show ExceptT.bind x f = _
  unfold ExceptT.bind ExceptT.mk
  cases x with
  | none => rfl
  | some result => cases result <;> rfl

/-- A derivation that is found low is found again when it may be higher. -/
def Below (x x' : Evaluation α) : Prop := ∀ r, x = some r → x' = some r

namespace Below

theorem refl (x : Evaluation α) : Below x x := fun _ h => h

theorem bind {x x' : Evaluation α} {f f' : α → Evaluation β} (hx : Below x x')
    (hf : ∀ a, Below (f a) (f' a)) : Below (x >>= f) (x' >>= f') := by
  intro r h
  rw [bind_eq] at h ⊢
  match x with
  | none => cases h
  | some (.error e) =>
    rw [hx _ rfl]
    exact h
  | some (.ok a) =>
    rw [hx _ rfl]
    exact hf a r h

theorem mapM {f f' : α → Evaluation β} (hf : ∀ a, Below (f a) (f' a)) (as : List α) :
    Below (as.mapM f) (as.mapM f') := by
  induction as with
  | nil => exact .refl _
  | cons a as ih =>
    rw [List.mapM_cons, List.mapM_cons]
    exact (hf a).bind fun b => ih.bind fun bs => .refl _

theorem evaluateBody {eval eval' : Env → Expr → Evaluation Form}
    (he : ∀ env e, Below (eval env e) (eval' env e)) (inner : Env) (body : List Stmt) :
    Below (evaluateBody eval inner body) (evaluateBody eval' inner body) := by
  unfold ByName.evaluateBody
  cases Stmt.lastExpr? body with
  | none => exact .refl _
  | some e => exact he inner e

theorem evaluate (answers : Answers) (height : Nat) (env : Env) (e : Expr) :
    Below (evaluate answers height env e) (evaluate answers (height + 1) env e) := by
  induction height generalizing env e with
  | zero => exact fun _ h => nomatch h
  | succ height ih =>
    cases e with
    | number | boolean | input | record | function => exact .refl _
    | name slot =>
      simp only [ByName.evaluate]
      cases env.lookup slot with
      | none => exact .refl _
      | some found => exact ih found.2 found.1
    | binary op left right =>
      exact (ih env left).bind fun l => (ih env right).bind fun r => .refl _
    | unary op operand => exact (ih env operand).bind fun f => .refl _
    | logical op left right =>
      refine (ih env left).bind fun l => (refl _).bind fun b => ?_
      split
      · exact .refl _
      · exact (ih env right).bind fun r => .refl _
    | conditional predicate consequent alternate =>
      exact (ih env predicate).bind fun p => (refl _).bind fun taken => ih env _
    | access base field =>
      refine (ih env base).bind fun f => ?_
      cases f with
      | record fields outer =>
        simp only
        cases fields.find? fun f => f.name == field with
        | none => exact .refl _
        | some f => exact ih _ _
      | _ => exact .refl _
    | block body =>
      simp only [ByName.evaluate]
      split
      · exact .refl _
      · exact .evaluateBody ih _ body
    | call callee args =>
      refine (ih env callee).bind fun f => ?_
      cases f with
      | closure name params body outer =>
        simp only
        split
        · exact ih _ _
        · exact .refl _
      | _ => exact .refl _

theorem completeField {eval eval' : Env → Expr → Evaluation Form}
    {comp comp' : Form → Evaluation Value} (he : ∀ env e, Below (eval env e) (eval' env e))
    (hc : ∀ form, Below (comp form) (comp' form)) (inner : Env) (field : Field) :
    Below (completeField eval comp inner field) (completeField eval' comp' inner field) :=
  (he inner field.value).bind fun form => (hc form).bind fun _ => .refl _

theorem complete (answers : Answers) (height : Nat) (form : Form) :
    Below (complete answers height form) (complete answers (height + 1) form) := by
  induction height generalizing form with
  | zero => exact fun _ h => nomatch h
  | succ height ih =>
    cases form with
    | record fields env =>
      exact (mapM (.completeField (.evaluate answers height) ih _) fields).bind fun _ => .refl _
    | _ => exact .refl _

end Below

/-- What is found at some height is found at all greater ones. -/
def Steady (y : Nat → Evaluation α) : Prop := ∀ height, Below (y height) (y (height + 1))

theorem Steady.of_le {y : Nat → Evaluation α} (hy : Steady y) {k n : Nat} (hk : k ≤ n)
    {r : Except Halt α} (h : y k = some r) : y n = some r := by
  induction hk with
  | refl => exact h
  | step _ ih => exact hy _ _ ih

theorem Steady.unique {y : Nat → Evaluation α} (hy : Steady y) {k n : Nat}
    {r r' : Except Halt α} (hk : y k = some r) (hn : y n = some r') : r = r' := by
  have h := hy.of_le (Nat.le_max_left k n) hk
  rw [hy.of_le (Nat.le_max_right k n) hn] at h
  exact (Option.some.inj h).symm

end ByName

end Inquiry
