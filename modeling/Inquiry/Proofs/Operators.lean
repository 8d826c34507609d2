import Inquiry.Arithmetic
set_option autoImplicit false

namespace Inquiry

theorem map_eq_ok {α β : Type} {f : α → β} {x : Except EvalError α} {b : β}
    (h : x.map f = .ok b) : ∃ a, x = .ok a ∧ f a = b := by
  cases x with
  | error e => simp [Except.map] at h
  | ok a =>
    simp only [Except.map, Except.ok.injEq] at h
    exact ⟨a, rfl, h⟩

theorem Datum.same_eq_ok {op : BinOp} {l r : Datum} {same : Bool} (h : l.same op r = .ok same) :
    ∃ a b : Answer, l = a.datum ∧ r = b.datum := by
  cases l <;> cases r <;> simp only [Datum.same, reduceCtorEq] at h
  · exact ⟨.number _, .number _, rfl, rfl⟩
  · exact ⟨.boolean _, .boolean _, rfl, rfl⟩

/-- An operator, with something else in the place of the operators on two numbers. -/
def BinOp.applyWith (arithmetic : Int64 → Int64 → BinOp → Except EvalError Datum) (op : BinOp)
    (l r : Datum) : Except EvalError Datum :=
  match op with
  | .eq => (l.same .eq r).map .boolean
  | .notEq => (l.same .notEq r).map fun same => .boolean (!same)
  | op =>
    match l, r with
    | .number a, .number b => arithmetic a b op
    | l, r => .error (.typeMismatch (.operands op l.category r.category))

/-- What the operators on two numbers make of a comparison for equality never matters. -/
theorem BinOp.applyWith_eq {arithmetic : Int64 → Int64 → BinOp → Except EvalError Datum}
    (h : ∀ op, op ≠ .eq → op ≠ .notEq → ∀ a b, arithmetic a b op = onNumbers a b op) (op : BinOp)
    (l r : Datum) : op.applyWith arithmetic l r = op.apply l r := by
  cases op
  case eq | notEq => rfl
  all_goals cases l <;> cases r <;> first | rfl | exact h _ (by decide) (by decide) _ _

theorem BinOp.onNumbers_eq_ok {op : BinOp} {a b : Int64} {d : Datum}
    (h : op.onNumbers a b = .ok d) : ∃ c : Answer, d = c.datum := by
  cases op
  case add | sub | mul | div | mod =>
    obtain ⟨n, _, rfl⟩ := map_eq_ok h
    exact ⟨.number n, rfl⟩
  all_goals
    simp only [onNumbers, Except.ok.injEq] at h
    exact ⟨.boolean _, h.symm⟩

theorem BinOp.apply_eq_ok {op : BinOp} {l r d : Datum} (h : op.apply l r = .ok d) :
    ∃ a b c : Answer, l = a.datum ∧ r = b.datum ∧ d = c.datum := by
  unfold apply at h
  split at h
  case h_1 | h_2 =>
    obtain ⟨same, hs, rfl⟩ := map_eq_ok h
    obtain ⟨a, b, rfl, rfl⟩ := Datum.same_eq_ok hs
    exact ⟨a, b, .boolean _, rfl, rfl, rfl⟩
  case h_3 =>
    split at h
    · rename_i a b
      obtain ⟨c, rfl⟩ := onNumbers_eq_ok h
      exact ⟨.number a, .number b, c, rfl, rfl, rfl⟩
    · contradiction

theorem UnaryOp.apply_eq_ok {op : UnaryOp} {d result : Datum} (h : op.apply d = .ok result) :
    ∃ a c : Answer, d = a.datum ∧ result = c.datum := by
  unfold apply at h
  split at h
  · rename_i n
    obtain ⟨m, _, rfl⟩ := map_eq_ok h
    exact ⟨.number n, .number m, rfl, rfl⟩
  · contradiction
  · obtain ⟨b, hb, rfl⟩ := map_eq_ok h
    cases d <;> simp only [Datum.toBool, reduceCtorEq] at hb
    exact ⟨.boolean _, .boolean _, rfl, rfl⟩

end Inquiry
