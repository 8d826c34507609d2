import Inquiry.Derivation.Error
import Inquiry.Distinct
set_option autoImplicit false

namespace Inquiry

structure Node where
  rule : Rule
  children : List Nat
  deriving DecidableEq, Repr

structure Trace where
  root : Option Nat
  nodes : Array Node
  deriving DecidableEq, Repr

namespace Token

def result? : Token → Option Summary
  | .result value => some value
  | _ => none

def label? : Token → Option String
  | .label text => some text
  | _ => none

def flag? : Token → Option Bool
  | .flag b => some b
  | _ => none

def count? : Token → Option Nat
  | .count n => some n
  | _ => none

def binary? : Token → Option BinOp
  | .binary op => some op
  | _ => none

def unary? : Token → Option UnaryOp
  | .unary op => some op
  | _ => none

def logical? : Token → Option LogicalOp
  | .logical op => some op
  | _ => none

end Token

def Attribute.read {α : Type} (expected : Attribute) (sort? : Token → Option α) :
    List Token → Except TraceError (α × List Token)
  | [] => .error (.missingAttribute expected)
  | token :: rest =>
    match sort? token with
    | some a => .ok (a, rest)
    | none => .error (.unexpectedToken expected token)

def Token.leadingLabels : List Token → List String × List Token
  | .label text :: rest =>
    let (labels, rest) := leadingLabels rest
    (text :: labels, rest)
  | tokens => ([], tokens)

def Rule.read : RuleKind → List Token → Except TraceError (Rule × List Token)
  | .literal, tokens => do
    let (value, tokens) ← Attribute.result.read Token.result? tokens
    return (.literal value, tokens)
  | .input, tokens => do
    let (question, tokens) ← Attribute.label.read Token.label? tokens
    let (value, tokens) ← Attribute.result.read Token.result? tokens
    return (.input question value, tokens)
  | .name, tokens => do
    let (text, tokens) ← Attribute.label.read Token.label? tokens
    let (derived, tokens) ← Attribute.flag.read Token.flag? tokens
    let (value, tokens) ← Attribute.result.read Token.result? tokens
    return (.name text derived value, tokens)
  | .binary, tokens => do
    let (op, tokens) ← Attribute.binaryOperator.read Token.binary? tokens
    let (value, tokens) ← Attribute.result.read Token.result? tokens
    return (.binary op value, tokens)
  | .unary, tokens => do
    let (op, tokens) ← Attribute.unaryOperator.read Token.unary? tokens
    let (value, tokens) ← Attribute.result.read Token.result? tokens
    return (.unary op value, tokens)
  | .logical, tokens => do
    let (op, tokens) ← Attribute.logicalOperator.read Token.logical? tokens
    let (evaluatedRight, tokens) ← Attribute.flag.read Token.flag? tokens
    let (value, tokens) ← Attribute.result.read Token.result? tokens
    return (.logical op evaluatedRight value, tokens)
  | .conditional, tokens => do
    let (consequent, tokens) ← Attribute.flag.read Token.flag? tokens
    let (value, tokens) ← Attribute.result.read Token.result? tokens
    return (.conditional consequent value, tokens)
  | .access, tokens => do
    let (field, tokens) ← Attribute.label.read Token.label? tokens
    let (derived, tokens) ← Attribute.flag.read Token.flag? tokens
    let (value, tokens) ← Attribute.result.read Token.result? tokens
    return (.access field derived value, tokens)
  | .block, tokens => do
    let (hasBody, tokens) ← Attribute.flag.read Token.flag? tokens
    let (value, tokens) ← Attribute.result.read Token.result? tokens
    return (.block hasBody value, tokens)
  | .call, tokens => do
    let (value, tokens) ← Attribute.result.read Token.result? tokens
    return (.call value, tokens)
  | .record, tokens => do
    let (fields, tokens) := Token.leadingLabels tokens
    let (count, tokens) ← Attribute.count.read Token.count? tokens
    if count = fields.length then
      let (value, tokens) ← Attribute.result.read Token.result? tokens
      return (.record fields value, tokens)
    else throw (.fieldCount fields.length count)

theorem Token.leadingLabels_map (labels : List String) (n : Nat) (rest : List Token) :
    Token.leadingLabels (labels.map .label ++ .count n :: rest) = (labels, .count n :: rest) := by
  induction labels with
  | nil => rfl
  | cons label labels ih => simp [leadingLabels, ih]

/-- A node reads back as it was written, whatever follows its value. -/
theorem Rule.read_attributes (r : Rule) (rest : List Token) :
    Rule.read r.kind (r.attributes ++ .result r.value :: rest) = .ok (r, rest) := by
  cases r with
  | record fields value =>
    simp [kind, attributes, Rule.value, read, Token.leadingLabels_map, Attribute.read,
      Token.count?, Token.result?, bind, Except.bind, pure, Except.pure]
  | _ => rfl

/-- Nodes read so far. `roots` are those that no other node has claimed, the newest first. -/
structure Forest where
  nodes : Array Node
  roots : List Nat
  deriving DecidableEq, Repr

def Forest.close (forest : Forest) (kind : RuleKind) (attributes : List Token) :
    Except TraceError Forest := do
  let ⟨nodes, roots⟩ := forest
  let id := nodes.size
  let (rule, rest) ← Rule.read kind attributes
  let claimed := roots.take rule.arity
  if claimed.length < rule.arity then throw (.missingChild kind)
  match rest with
  | [] => return ⟨nodes.push ⟨rule, claimed.reverse⟩, id :: roots.drop rule.arity⟩
  | token :: _ => throw (.leftoverToken token)

/-- Reads on after the tokens in `pending`, the last one first, that belong to an open node. -/
def Forest.read (forest : Forest) (pending : List Token) :
    List Token → Except TraceError Forest
  | [] => if pending.isEmpty then .ok forest else .error .unterminatedNode
  | .marker kind :: rest =>
    match forest.close kind pending.reverse with
    | .ok forest => forest.read [] rest
    | .error e => .error e
  | token :: rest => forest.read (token :: pending) rest

/-- The derivation on a tape: one tree, or nothing at all. -/
def Tape.decode (tape : Tape) : Except TraceError Trace :=
  match Forest.read ⟨#[], []⟩ [] tape.tokens.toList with
  | .error e => .error e
  | .ok ⟨nodes, []⟩ => .ok ⟨none, nodes⟩
  | .ok ⟨nodes, [root]⟩ => .ok ⟨some root, nodes⟩
  | .ok ⟨_, _ :: rest⟩ => .error (.trailingNodes rest.length)

def Rule.question? : Rule → Option String
  | .input question _ => some question
  | _ => none

namespace Trace

def isEmpty (t : Trace) : Bool := t.root.isNone

/-- The questions the derivation rests on, in the order in which they were first consulted. -/
def inputs (t : Trace) : List String :=
  distinctBy id (t.nodes.toList.filterMap fun node => node.rule.question?)

/-- Visits the nodes of the work list, each before those it rests on and these before the rest
of the list, and lists them after `out`; at most `fuel` nodes. -/
def visit (t : Trace) : Nat → List Nat → Array (Nat × Node) → Array (Nat × Node)
  | _, [], out => out
  | 0, _, out => out
  | fuel + 1, i :: work, out =>
    match t.nodes[i]? with
    | some node => t.visit fuel (node.children ++ work) (out.push (i, node))
    | none => t.visit fuel work out

def preorder (t : Trace) : Array (Nat × Node) := t.visit t.nodes.size t.root.toList #[]

def rootNode? (t : Trace) : Option Node := t.root.bind fun i => t.nodes[i]?

end Trace

end Inquiry
