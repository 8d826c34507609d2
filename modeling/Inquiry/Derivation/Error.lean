import Inquiry.Derivation.Token
import Inquiry.Text.Quoted
set_option autoImplicit false

namespace Inquiry

inductive Attribute where
  | result | label | flag | count | binaryOperator | unaryOperator | logicalOperator
  deriving DecidableEq, Repr

def Attribute.name : Attribute → String
  | .result => "result"
  | .label => "label"
  | .flag => "flag"
  | .count => "count"
  | .binaryOperator => "binary operator"
  | .unaryOperator => "unary operator"
  | .logicalOperator => "logical operator"

inductive TraceError where
  | missingAttribute (expected : Attribute)
  | unexpectedToken (expected : Attribute) (found : Token)
  | leftoverToken (found : Token)
  | fieldCount (labels count : Nat)
  | missingChild (kind : RuleKind)
  | unterminatedNode
  | trailingNodes (n : Nat)
  deriving DecidableEq, Repr

def BinOp.title : BinOp → String
  | .add => "Add"
  | .sub => "Sub"
  | .mul => "Mul"
  | .div => "Div"
  | .mod => "Mod"
  | .eq => "Eq"
  | .notEq => "NotEq"
  | .less => "Less"
  | .greater => "Greater"
  | .lessEq => "LessEq"
  | .greaterEq => "GreaterEq"

def UnaryOp.title : UnaryOp → String
  | .neg => "Neg"
  | .not => "Not"

def LogicalOp.title : LogicalOp → String
  | .and => "And"
  | .or => "Or"

def Summary.description : Summary → String
  | .number n => "Number(" ++ toString n.toInt ++ ")"
  | .boolean b => "Boolean(" ++ toString b ++ ")"
  | .record fields => "Record([" ++ ", ".intercalate (fields.map Text.quoted) ++ "])"
  | .function (some name) => "Function(Some(" ++ Text.quoted name ++ "))"
  | .function none => "Function(None)"
  | .undefined => "Undefined"

def Token.description : Token → String
  | .marker kind => "Marker(" ++ kind.title ++ ")"
  | .result value => "Result(" ++ value.description ++ ")"
  | .binary op => "Binary(" ++ op.title ++ ")"
  | .unary op => "Unary(" ++ op.title ++ ")"
  | .logical op => "Logical(" ++ op.title ++ ")"
  | .label text => "Label(" ++ Text.quoted text ++ ")"
  | .flag b => "Flag(" ++ toString b ++ ")"
  | .count n => "Count(" ++ toString n ++ ")"

def TraceError.message : TraceError → String
  | .missingAttribute expected => "node is missing its " ++ expected.name
  | .unexpectedToken expected found =>
    "expected " ++ expected.name ++ ", found " ++ found.description
  | .leftoverToken found => "expected marker, found " ++ found.description
  | .fieldCount labels count =>
    "expected one label per field, found " ++ toString labels ++ " label(s) for "
      ++ toString count ++ " field(s)"
  | .missingChild kind => kind.title ++ " node is missing a child"
  | .unterminatedNode => "token stream ends inside a node"
  | .trailingNodes n => toString n ++ " node(s) left beside the root"

end Inquiry
