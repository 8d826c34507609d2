import Inquiry.Datum
import Inquiry.Expr
set_option autoImplicit false

/-!
The rules by which a derivation reaches its values. A rule holds everything of a derivation
node but the nodes it rests on; how many those are, the rule tells.
-/

namespace Inquiry

inductive RuleKind where
  | literal | input | name | binary | unary | logical | conditional
  | access | block | call | record
  deriving DecidableEq, Repr

def RuleKind.word : RuleKind → String
  | .literal => "literal"
  | .input => "input"
  | .name => "name"
  | .binary => "binary"
  | .unary => "unary"
  | .logical => "logical"
  | .conditional => "conditional"
  | .access => "attribute"
  | .block => "block"
  | .call => "call"
  | .record => "record"

def RuleKind.title : RuleKind → String
  | .literal => "Literal"
  | .input => "Input"
  | .name => "Name"
  | .binary => "Binary"
  | .unary => "Unary"
  | .logical => "Logical"
  | .conditional => "Conditional"
  | .access => "Attribute"
  | .block => "Block"
  | .call => "Call"
  | .record => "Record"

inductive Rule where
  | literal (value : Summary)
  | input (question : String) (value : Summary)
  /-- `derived` when the name got its value here; a later reading has no premise. -/
  | name (name : String) (derived : Bool) (value : Summary)
  | binary (op : BinOp) (value : Summary)
  | unary (op : UnaryOp) (value : Summary)
  /-- `evaluatedRight` unless the left operand decided. -/
  | logical (op : LogicalOp) (evaluatedRight : Bool) (value : Summary)
  | conditional (consequent : Bool) (value : Summary)
  | access (field : String) (derived : Bool) (value : Summary)
  | block (hasBody : Bool) (value : Summary)
  | call (value : Summary)
  | record (fields : List String) (value : Summary)
  deriving DecidableEq, Repr

namespace Rule

def kind : Rule → RuleKind
  | .literal _ => .literal
  | .input _ _ => .input
  | .name _ _ _ => .name
  | .binary _ _ => .binary
  | .unary _ _ => .unary
  | .logical _ _ _ => .logical
  | .conditional _ _ => .conditional
  | .access _ _ _ => .access
  | .block _ _ => .block
  | .call _ => .call
  | .record _ _ => .record

def value : Rule → Summary
  | .literal value | .input _ value | .name _ _ value | .binary _ value | .unary _ value
  | .logical _ _ value | .conditional _ value | .access _ _ value | .block _ value
  | .call value | .record _ value => value

/-- How many derivations the rule rests on. -/
def arity : Rule → Nat
  | .literal _ | .input _ _ => 0
  | .name _ derived _ => derived.toNat
  | .binary _ _ => 2
  | .unary _ _ => 1
  | .logical _ evaluatedRight _ => 1 + evaluatedRight.toNat
  | .conditional _ _ => 2
  | .access _ derived _ => 1 + derived.toNat
  | .block hasBody _ => hasBody.toNat
  | .call _ => 2
  | .record fields _ => 1 + fields.length

end Rule

end Inquiry
