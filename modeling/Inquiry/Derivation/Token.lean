import Inquiry.Derivation.Rule
set_option autoImplicit false

/-!
The flat form of a derivation: each node is written after the nodes it rests on, as its
attributes, its value and a marker with its kind.
-/

namespace Inquiry

inductive Token where
  | marker (kind : RuleKind)
  | result (value : Summary)
  | binary (op : BinOp)
  | unary (op : UnaryOp)
  | logical (op : LogicalOp)
  | label (text : String)
  | flag (b : Bool)
  | count (n : Nat)
  deriving DecidableEq, Repr

def Rule.attributes : Rule → List Token
  | .literal _ | .call _ => []
  | .input question _ => [.label question]
  | .name text derived _ => [.label text, .flag derived]
  | .binary op _ => [.binary op]
  | .unary op _ => [.unary op]
  | .logical op evaluatedRight _ => [.logical op, .flag evaluatedRight]
  | .conditional consequent _ => [.flag consequent]
  | .access field derived _ => [.label field, .flag derived]
  | .block hasBody _ => [.flag hasBody]
  | .record fields _ => fields.map .label ++ [.count fields.length]

def Rule.tokens (r : Rule) : List Token :=
  r.attributes ++ [.result r.value, .marker r.kind]

/-- What a derivation writes down while it grows; nothing unless `enabled`. -/
structure Tape where
  tokens : Array Token
  enabled : Bool
  deriving DecidableEq, Repr

namespace Tape

def empty (enabled : Bool) : Tape := ⟨#[], enabled⟩

def push : Tape → Token → Tape
  | ⟨tokens, true⟩, token => ⟨tokens.push token, true⟩
  | ⟨tokens, false⟩, _ => ⟨tokens, false⟩

def append : Tape → List Token → Tape
  | ⟨tokens, true⟩, more => ⟨tokens ++ more, true⟩
  | ⟨tokens, false⟩, _ => ⟨tokens, false⟩

def emit (tape : Tape) (rule : Rule) : Tape := tape.append rule.tokens

end Tape

end Inquiry
