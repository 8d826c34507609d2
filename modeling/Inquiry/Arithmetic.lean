import Inquiry.Error
set_option autoImplicit false

/-!
Numbers are words of 64 bits with a sign. An operation whose exact result is no such number is
an error. Division rounds down, so that a remainder has the sign of its divisor.
-/

namespace Inquiry

def exactly (symbol : String) (w : Int64) (i : Int) : Except EvalError Int64 :=
  if w.toInt = i then .ok w else .error (.overflow symbol)

def checkedAdd (a b : Int64) : Except EvalError Int64 := exactly "+" (a + b) (a.toInt + b.toInt)

def checkedSub (a b : Int64) : Except EvalError Int64 := exactly "-" (a - b) (a.toInt - b.toInt)

def checkedMul (a b : Int64) : Except EvalError Int64 := exactly "*" (a * b) (a.toInt * b.toInt)

def checkedNeg (a : Int64) : Except EvalError Int64 := exactly "-" (-a) (-a.toInt)

/-- Whether division toward zero left a remainder whose sign is not that of the divisor. -/
def needsCorrection (r b : Int64) : Bool := r != 0 && (decide (r < 0) != decide (b < 0))

/-- The quotient toward zero, less one where the exact quotient lies below it. -/
def floorDiv (a b : Int64) : Except EvalError Int64 :=
  if b = 0 then .error .divisionByZero
  else if a = Int64.minValue ∧ b = -1 then .error (.overflow "/")
  else if needsCorrection (a % b) b then .ok (a / b - 1)
  else .ok (a / b)

def floorMod (a b : Int64) : Except EvalError Int64 :=
  if b = 0 then .error .divisionByZero
  else if a = Int64.minValue ∧ b = -1 then .error (.overflow "%")
  else if needsCorrection (a % b) b then .ok (a % b + b)
  else .ok (a % b)

/-- Whether two values are the same. Only numbers and booleans can be compared, each with its
own kind. -/
def Datum.same (op : BinOp) : Datum → Datum → Except EvalError Bool
  | .number a, .number b => .ok (a == b)
  | .boolean a, .boolean b => .ok (a == b)
  | l, r => .error (.typeMismatch (.comparison op l.category r.category))

def BinOp.onNumbers (a b : Int64) : BinOp → Except EvalError Datum
  | .add => (checkedAdd a b).map .number
  | .sub => (checkedSub a b).map .number
  | .mul => (checkedMul a b).map .number
  | .div => (floorDiv a b).map .number
  | .mod => (floorMod a b).map .number
  | .eq => .ok (.boolean (a == b))
  | .notEq => .ok (.boolean (a != b))
  | .less => .ok (.boolean (a < b))
  | .greater => .ok (.boolean (b < a))
  | .lessEq => .ok (.boolean (a ≤ b))
  | .greaterEq => .ok (.boolean (b ≤ a))

def BinOp.apply (op : BinOp) (l r : Datum) : Except EvalError Datum :=
  match op with
  | .eq => (l.same .eq r).map .boolean
  | .notEq => (l.same .notEq r).map fun same => .boolean (!same)
  | op =>
    match l, r with
    | .number a, .number b => op.onNumbers a b
    | l, r => .error (.typeMismatch (.operands op l.category r.category))

def Datum.toBool (place : Condition) : Datum → Except EvalError Bool
  | .boolean b => .ok b
  | d => .error (.typeMismatch (.condition place d.category))

def UnaryOp.apply : UnaryOp → Datum → Except EvalError Datum
  | .neg, .number n => (checkedNeg n).map .number
  | .neg, d => .error (.typeMismatch (.negation d.category))
  | .not, d => (d.toBool .negated).map fun b => .boolean (!b)

end Inquiry
