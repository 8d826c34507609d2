import Inquiry.Pass
import Inquiry.Proofs.Machine.Move
import Inquiry.Proofs.Operators
set_option autoImplicit false

namespace Inquiry

def EvalError.ofOperands : EvalError → Bool
  | .typeMismatch _ | .divisionByZero | .overflow _ => true
  | _ => false

/-- The errors that evaluating an expression can end in. -/
def EvalError.ofEvaluation : EvalError → Bool
  | .typeMismatch _ | .unboundName _ | .missingField _ | .notCallable _ | .arityMismatch _ _ _
  | .divisionByZero | .overflow _ | .emptyBlock | .cyclicEvaluation _ => true
  | _ => false

theorem EvalError.ofEvaluation_of_ofOperands {e : EvalError} (h : e.ofOperands = true) :
    e.ofEvaluation = true := by
  cases e <;> first | rfl | cases h

theorem map_eq_error {α β : Type} {f : α → β} {x : Except EvalError α} {e : EvalError}
    (h : x.map f = .error e) : x = .error e := by
  cases x with
  | error e' => simpa [Except.map] using h
  | ok a => simp [Except.map] at h

theorem ofOperands_of_exactly {symbol : String} {w : Int64} {i : Int} {e : EvalError}
    (h : exactly symbol w i = .error e) : e.ofOperands = true := by
  unfold exactly at h
  split at h
  · contradiction
  · cases h
    rfl

theorem ofOperands_of_floorDiv {a b : Int64} {e : EvalError} (h : floorDiv a b = .error e) :
    e.ofOperands = true := by
  unfold floorDiv at h
  split at h
  · cases h
    rfl
  · split at h
    · cases h
      rfl
    · split at h <;> contradiction

theorem ofOperands_of_floorMod {a b : Int64} {e : EvalError} (h : floorMod a b = .error e) :
    e.ofOperands = true := by
  unfold floorMod at h
  split at h
  · cases h
    rfl
  · split at h
    · cases h
      rfl
    · split at h <;> contradiction

theorem Datum.ofOperands_of_toBool {place : Condition} {d : Datum} {e : EvalError}
    (h : d.toBool place = .error e) : e.ofOperands = true := by
  cases d with
  | boolean b => simp [toBool] at h
  | _ =>
    simp only [toBool, Except.error.injEq] at h
    rw [← h]
    rfl

theorem Datum.ofOperands_of_same {op : BinOp} {l r : Datum} {e : EvalError}
    (h : l.same op r = .error e) : e.ofOperands = true := by
  unfold same at h
  split at h
  · contradiction
  · contradiction
  · cases h
    rfl

theorem BinOp.ofOperands_of_onNumbers {op : BinOp} {a b : Int64} {e : EvalError}
    (h : op.onNumbers a b = .error e) : e.ofOperands = true := by
  cases op
  case add | sub | mul => exact ofOperands_of_exactly (map_eq_error h)
  case div => exact ofOperands_of_floorDiv (map_eq_error h)
  case mod => exact ofOperands_of_floorMod (map_eq_error h)
  all_goals simp [onNumbers] at h

theorem BinOp.ofOperands_of_apply {op : BinOp} {l r : Datum} {e : EvalError}
    (h : op.apply l r = .error e) : e.ofOperands = true := by
  unfold apply at h
  split at h
  case h_1 | h_2 => exact Datum.ofOperands_of_same (map_eq_error h)
  case h_3 =>
    split at h
    · exact ofOperands_of_onNumbers h
    · cases h
      rfl

theorem UnaryOp.ofOperands_of_apply {op : UnaryOp} {d : Datum} {e : EvalError}
    (h : op.apply d = .error e) : e.ofOperands = true := by
  unfold apply at h
  split at h
  · exact ofOperands_of_exactly (map_eq_error h)
  · cases h
    rfl
  · exact Datum.ofOperands_of_toBool (map_eq_error h)

namespace Machine

variable {answers : Answers} {m m' : Machine} {e : EvalError}

theorem ofEvaluation_of_fieldMove {record : RecordId} {i : Nat}
    (h : FieldMove record i m (.stop (.failed e) m')) : e.ofEvaluation = true := by
  cases h with
  | cyclic hf hs => rfl

theorem ofEvaluation_of_step {control : Control}
    (h : m.step answers control = .stop (.failed e) m') : e.ofEvaluation = true := by
  cases move_of_step h with
  | binaryFailed hr => exact EvalError.ofEvaluation_of_ofOperands (BinOp.ofOperands_of_apply hr)
  | unaryFailed hr => exact EvalError.ofEvaluation_of_ofOperands (UnaryOp.ofOperands_of_apply hr)
  | logicalRightFailed hb | logicalFailed hb | branchFailed hb =>
    exact EvalError.ofEvaluation_of_ofOperands (Datum.ofOperands_of_toBool hb)
  | completeRecord ho hf => exact ofEvaluation_of_fieldMove hf
  | recordField hf => exact ofEvaluation_of_fieldMove hf
  | _ => rfl

theorem ofEvaluation_of_run {gas turns : Nat} {control : Control}
    (h : (m.run answers gas turns control).outcome = .failed e) :
    e.ofEvaluation = true ∨ e = .gasExhausted := by
  induction gas generalizing turns control m with
  | zero =>
    simp only [run, Outcome.failed.injEq] at h
    exact .inr h.symm
  | succ gas ih =>
    unfold run at h
    split at h
    · exact ih h
    · rename_i outcome m' hs
      simp only at h
      subst h
      exact .inl (ofEvaluation_of_step hs)

end Machine

end Inquiry
