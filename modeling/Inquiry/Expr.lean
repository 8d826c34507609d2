import Inquiry.Value
set_option autoImplicit false

namespace Inquiry

inductive BinOp where
  | add | sub | mul | div | mod
  | eq | notEq | less | greater | lessEq | greaterEq
  deriving DecidableEq, Repr

inductive UnaryOp where
  | neg | not
  deriving DecidableEq, Repr

inductive LogicalOp where
  | and | or
  deriving DecidableEq, Repr

def BinOp.symbol : BinOp → String
  | .add => "+"
  | .sub => "-"
  | .mul => "*"
  | .div => "/"
  | .mod => "%"
  | .eq => "=="
  | .notEq => "!="
  | .less => "<"
  | .greater => ">"
  | .lessEq => "<="
  | .greaterEq => ">="

def UnaryOp.symbol : UnaryOp → String
  | .neg => "-"
  | .not => "!"

def LogicalOp.symbol : LogicalOp → String
  | .and => "&&"
  | .or => "||"

def BinOp.word : BinOp → String
  | .add => "add"
  | .sub => "sub"
  | .mul => "mul"
  | .div => "div"
  | .mod => "mod"
  | .eq => "eq"
  | .notEq => "not_eq"
  | .less => "less"
  | .greater => "greater"
  | .lessEq => "less_eq"
  | .greaterEq => "greater_eq"

def UnaryOp.word : UnaryOp → String
  | .neg => "neg"
  | .not => "not"

def LogicalOp.word : LogicalOp → String
  | .and => "and"
  | .or => "or"

/-- The value of the left operand that makes the right one unnecessary. -/
def LogicalOp.decider : LogicalOp → Bool
  | .and => false
  | .or => true

theorem LogicalOp.and_eq_ite_decider (l r : Bool) :
    (l && r) = if l = decider .and then l else r := by
  cases l <;> rfl

theorem LogicalOp.or_eq_ite_decider (l r : Bool) :
    (l || r) = if l = decider .or then l else r := by
  cases l <;> rfl

/-- A declared variable. Slots are told apart by `id`; the name is for readers only. -/
structure Slot where
  id : Nat
  name : String
  deriving DecidableEq, Repr

/-- A hole in a program that the host fills. Questions with one text share one answer. -/
structure Question where
  text : String
  kind : Kind
  prompt : String
  deriving DecidableEq, Repr

mutual

inductive Expr where
  | number (n : Int64)
  | boolean (b : Bool)
  | input (question : Question)
  | record (fields : List Field)
  | function (name : Option String) (params : List Slot) (body : Expr)
  | name (slot : Slot)
  | binary (op : BinOp) (left right : Expr)
  | unary (op : UnaryOp) (operand : Expr)
  | logical (op : LogicalOp) (left right : Expr)
  | conditional (predicate consequent alternate : Expr)
  | access (base : Expr) (field : String)
  | block (body : List Stmt)
  | call (callee : Expr) (args : List Expr)

/-- A field owns a slot, through which its siblings can read it. -/
inductive Field where
  | mk (name : String) (slot : Slot) (value : Expr)

inductive Stmt where
  | bind (slot : Slot) (value : Expr)
  | expr (value : Expr)

end

def Field.name : Field → String
  | .mk name _ _ => name

def Field.slot : Field → Slot
  | .mk _ slot _ => slot

def Field.value : Field → Expr
  | .mk _ _ value => value

instance : Inhabited Expr := ⟨.boolean false⟩

structure Program where
  body : List Stmt

end Inquiry
