import Inquiry.Derivation.Trace
import Inquiry.Json
set_option autoImplicit false

namespace Inquiry

def Summary.json : Summary → Json
  | .number n => .ofMembers [("type", .ofText "number"), ("value", .ofInt n.toInt)]
  | .boolean b => .ofMembers [("type", .ofText "boolean"), ("value", .bool b)]
  | .record fields =>
    .ofMembers [("type", .ofText "record"), ("value", .array (fields.map .ofText))]
  | .function (some name) => .ofMembers [("type", .ofText "function"), ("value", .ofText name)]
  | .function none => .ofMembers [("type", .ofText "function"), ("value", .null)]
  | .undefined => .ofMembers [("type", .ofText "undefined")]

namespace Node

def childJson (node : Node) (place : Nat) : Json :=
  match node.children[place]? with
  | some i => .ofNat i
  | none => .null

def fieldsJson (fields : List String) (children : List Nat) : Json :=
  .array ((fields.zip children).map fun (field, i) =>
    .ofMembers [("name", .ofText field), ("trace", .ofNat i)])

def details (node : Node) : List (String × Json) :=
  match node.rule with
  | .literal _ => []
  | .input question _ => [("question", .ofText question)]
  | .name text _ _ => [("name", .ofText text), ("derivation", node.childJson 0)]
  | .binary op _ =>
    [("op", .ofText op.word), ("lhs", node.childJson 0), ("rhs", node.childJson 1)]
  | .unary op _ => [("op", .ofText op.word), ("operand", node.childJson 0)]
  | .logical op _ _ =>
    [("op", .ofText op.word), ("lhs", node.childJson 0), ("rhs", node.childJson 1)]
  | .conditional consequent _ =>
    [("predicate", node.childJson 0), ("consequent", .bool consequent),
      ("branch", node.childJson 1)]
  | .access field _ _ =>
    [("base", node.childJson 0), ("field", .ofText field), ("derivation", node.childJson 1)]
  | .block _ _ => [("body", node.childJson 0)]
  | .call _ => [("callee", node.childJson 0), ("body", node.childJson 1)]
  | .record fields _ =>
    [("source", node.childJson 0), ("fields", fieldsJson fields (node.children.drop 1))]

def json (node : Node) : Json :=
  .ofMembers (("node", .ofText node.rule.kind.word) :: node.details
    ++ [("value", node.rule.value.json)])

end Node

def Trace.json (t : Trace) : Json :=
  .ofMembers [("root", (t.root.map Json.ofNat).getD .null),
    ("nodes", .array (t.nodes.toList.map Node.json))]

end Inquiry
