import Inquiry.Derivation.Error
set_option autoImplicit false

namespace Inquiry

inductive Condition where
  | negated
  | operand (op : LogicalOp)
  | predicate
  deriving DecidableEq, Repr

def Condition.description : Condition → String
  | .negated => "'!'"
  | .operand op => "'" ++ op.symbol ++ "'"
  | .predicate => "conditional predicate"

inductive Mismatch where
  | operands (op : BinOp) (left right : Category)
  | comparison (op : BinOp) (left right : Category)
  | negation (found : Category)
  | condition (place : Condition) (found : Category)
  | access (field : String) (found : Category)
  deriving DecidableEq, Repr

def Mismatch.message : Mismatch → String
  | .operands op left right =>
    "cannot apply '" ++ op.symbol ++ "' to " ++ left.name ++ " and " ++ right.name
  | .comparison op left right =>
    "cannot compare " ++ left.name ++ " and " ++ right.name ++ " with '" ++ op.symbol ++ "'"
  | .negation found => "cannot negate " ++ found.name
  | .condition place found => place.description ++ " requires boolean, got " ++ found.name
  | .access field found => "cannot access field '" ++ field ++ "' on " ++ found.name

inductive EvalError where
  | typeMismatch (mismatch : Mismatch)
  | unboundName (name : String)
  | missingField (field : String)
  | notCallable (found : Category)
  | arityMismatch (callee : Option String) (expected found : Nat)
  | divisionByZero
  | overflow (symbol : String)
  | emptyBlock
  | emptyProgram
  | cyclicEvaluation (name : String)
  | inputKindMismatch (question : String) (expected : Kind) (found : Category)
  | unknownQuestion (question : String)
  | noHandler (question : String)
  | alreadyAnswered (question : String)
  /-- The continuation belongs to a pass that was given up. -/
  | staleContinuation (question : String)
  | continuationConsumed (question : String)
  | gasExhausted
  | malformedTrace (cause : TraceError)
  deriving DecidableEq, Repr

def EvalError.message : EvalError → String
  | .typeMismatch mismatch => "type mismatch: " ++ mismatch.message
  | .unboundName name => "unbound name: " ++ name
  | .missingField field => "record has no field '" ++ field ++ "'"
  | .notCallable found => "cannot call " ++ found.name
  | .arityMismatch callee expected found =>
    callee.getD "anonymous function" ++ " expects " ++ toString expected
      ++ " argument(s), got " ++ toString found
  | .divisionByZero => "division by zero"
  | .overflow symbol => "arithmetic overflow in '" ++ symbol ++ "'"
  | .emptyBlock => "block has no statements"
  | .emptyProgram => "program has no statements"
  | .cyclicEvaluation name => "cyclic evaluation of '" ++ name ++ "'"
  | .inputKindMismatch question expected found =>
    "question '" ++ question ++ "' expects a " ++ expected.name ++ ", got " ++ found.name
  | .unknownQuestion question => "unknown question '" ++ question ++ "'"
  | .noHandler question => "no input handler registered for question '" ++ question ++ "'"
  | .alreadyAnswered question => "question '" ++ question ++ "' is already answered"
  | .staleContinuation question => "stale continuation for question '" ++ question ++ "'"
  | .continuationConsumed question =>
    "continuation for question '" ++ question ++ "' was already resumed"
  | .gasExhausted => "gas exhausted"
  | .malformedTrace cause => "malformed trace: " ++ cause.message

end Inquiry
