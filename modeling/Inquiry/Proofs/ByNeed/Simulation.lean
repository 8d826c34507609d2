import Inquiry.Proofs.ByNeed.Evaluator
import Inquiry.Proofs.Heap.Records
set_option autoImplicit false

/-!
The machine does what evaluation by recursion does, whatever waits on its stack. Each evaluation
takes some turns and leaves the stack and the open records as they were; while a derivation of some
height is not enough, the machine has more turns to take than that.
-/

namespace Inquiry

namespace Turn

variable {answers : Answers}

/-- What comes of a turn after so many more. -/
def later (answers : Answers) : Nat → Turn → Turn
  | 0, t => t
  | n + 1, .next control m => later answers n (m.step answers control)
  | _ + 1, .stop outcome m => .stop outcome m

@[simp] theorem later_stop (n : Nat) (outcome : Outcome) (m : Machine) :
    later answers n (.stop outcome m) = .stop outcome m := by cases n <;> rfl

theorem later_add (a b : Nat) (t : Turn) :
    later answers (a + b) t = later answers b (later answers a t) := by
  induction a generalizing t with
  | zero => rw [Nat.zero_add]; rfl
  | succ a ih =>
    rw [Nat.succ_add]
    cases t with
    | next control m => exact ih (m.step answers control)
    | stop outcome m => simp

theorem later_eq_next {k n : Nat} (hk : k ≤ n) {t : Turn} {control : Control} {m : Machine}
    (h : later answers n t = .next control m) :
    ∃ control m, later answers k t = .next control m := by
  obtain ⟨d, rfl⟩ := Nat.exists_eq_add_of_le hk
  rw [later_add] at h
  cases hl : later answers k t with
  | next control m => exact ⟨control, m, rfl⟩
  | stop outcome m =>
    rw [hl, later_stop] at h
    contradiction

theorem keepsRecords_of_later {k : Nat} {control next : Control} {m m' : Machine}
    (h : later answers k (.next control m) = .next next m') :
    m.heap.KeepsRecords m'.heap := by
  induction k generalizing control m with
  | zero =>
    cases h
    exact .refl _
  | succ k ih =>
    cases hs : m.step answers control with
    | next control₁ m₁ =>
      simp only [later, hs] at h
      exact (Machine.keepsRecords_of_step hs).trans (ih h)
    | stop outcome m₁ =>
      simp only [later, hs, later_stop] at h
      contradiction

/-- The turn leads on as the evaluation says: to `goal`, if it comes to its end; to a stop, if it
halts; and through at least `n` turns, if it is too high. -/
def Follows {α : Type} (answers : Answers) (n : Nat) (goal : α → ByNeed.Store → Turn) (t : Turn) :
    Option (Except Halt (α × ByNeed.Store)) → Prop
  | some (.ok (a, s)) => ∃ k, t.later answers k = goal a s
  | some (.error halt) => ∃ k m, t.later answers k = .stop halt.outcome m
  | none => ∃ control m, t.later answers n = .next control m

end Turn

namespace Machine

def withStore (m : Machine) (s : ByNeed.Store) : Machine :=
  { m with heap := s.heap, tape := s.tape }

def store (m : Machine) : ByNeed.Store := ⟨m.heap, m.tape⟩

@[simp] theorem store_heap (m : Machine) : m.store.heap = m.heap := rfl

@[simp] theorem push_withStore (m : Machine) (task : Task) (s : ByNeed.Store) :
    (m.push task).withStore s = (m.withStore s).push task := rfl

end Machine

namespace Turn.Follows

open ByNeed

variable {α β : Type} {answers : Answers} {n : Nat} {goal : α → Store → Turn}
  {next : β → Store → Turn} {t : Turn}

theorem weaken {x : Option (Except Halt (α × Store))} {k : Nat} (hk : k ≤ n)
    (h : Follows answers n goal t x) : Follows answers k goal t x := by
  match x with
  | some (.ok _) => exact h
  | some (.error _) => exact h
  | none =>
    obtain ⟨control, m, h⟩ := h
    exact later_eq_next hk h

theorem step {x : Option (Except Halt (α × Store))} {control : Control} {m : Machine}
    (h : Follows answers n goal (m.step answers control) x) :
    Follows answers (n + 1) goal (.next control m) x := by
  match x with
  | some (.ok _) =>
    obtain ⟨k, h⟩ := h
    exact ⟨k + 1, h⟩
  | some (.error _) =>
    obtain ⟨k, m', h⟩ := h
    exact ⟨k + 1, m', h⟩
  | none => exact h

theorem give {x : Option (Except Halt (α × Store))} {task : Task} {d : Datum} {m : Machine}
    (h : Follows answers n goal (m.apply d task) x) :
    Follows answers n goal (.next (.give d) (m.push task)) x :=
  weaken (Nat.le_succ n) (step h)

theorem bind_of_eq {x : Evaluation α} {f : α → Evaluation β} {s : Store}
    (hx : Follows answers n goal t (x s))
    (hf : ∀ a s', x s = some (.ok (a, s')) → Follows answers n next (goal a s') (f a s')) :
    Follows answers n next t ((x >>= f) s) := by
  rw [bind_apply]
  match hs : x s with
  | none =>
    rw [hs] at hx
    exact hx
  | some (.error halt) =>
    rw [hs] at hx
    exact hx
  | some (.ok (a, s')) =>
    rw [hs] at hx
    obtain ⟨k, hk⟩ := hx
    have h := hf a s' hs
    rw [← hk] at h
    simp only
    match hy : f a s' with
    | none =>
      rw [hy] at h
      obtain ⟨control, m, h⟩ := h
      rw [← later_add, Nat.add_comm] at h
      exact later_eq_next (Nat.le_add_right n k) h
    | some (.error halt) =>
      rw [hy] at h
      obtain ⟨j, m, h⟩ := h
      exact ⟨k + j, m, by rw [later_add, h]⟩
    | some (.ok (b, s'')) =>
      rw [hy] at h
      obtain ⟨j, h⟩ := h
      exact ⟨k + j, by rw [later_add, h]⟩

theorem trans {next : α → Store → Turn} {x : Option (Except Halt (α × Store))}
    (h : Follows answers n goal t x) (hg : ∀ a s, ∃ k, (goal a s).later answers k = next a s) :
    Follows answers n next t x := by
  match x with
  | some (.ok (a, s)) =>
    obtain ⟨j, hj⟩ := h
    obtain ⟨k, hk⟩ := hg a s
    exact ⟨j + k, by rw [later_add, hj, hk]⟩
  | some (.error _) => exact h
  | none => exact h

theorem bind {x : Evaluation α} {f : α → Evaluation β} {s : Store}
    (hx : Follows answers n goal t (x s))
    (hf : ∀ a s', Follows answers n next (goal a s') (f a s')) :
    Follows answers n next t ((x >>= f) s) :=
  bind_of_eq hx fun a s' _ => hf a s'

theorem fail {e : EvalError} {s : Store} {m : Machine} :
    Follows answers n goal (m.fail e) (ByNeed.fail e s) := ⟨0, m, rfl⟩

theorem ite {c : Prop} [Decidable c] {t' : Turn} {x y : Evaluation α} {s : Store}
    (ht : c → Follows answers n goal t (x s)) (hf : ¬c → Follows answers n goal t' (y s)) :
    Follows answers n goal (if c then t else t') ((if c then x else y) s) := by
  by_cases h : c
  · simpa [h] using ht h
  · simpa [h] using hf h

theorem read {f : Heap → β} {g : β → Evaluation α} {s : Store}
    (h : Follows answers n goal t (g (f s.heap) s)) :
    Follows answers n goal t ((ByNeed.read f >>= g) s) := by
  rw [bind_apply]
  exact h

theorem allocate {f : Heap → β × Heap} {g : β → Evaluation α} {s : Store}
    (h : Follows answers n goal t (g (f s.heap).1 ⟨(f s.heap).2, s.tape⟩)) :
    Follows answers n goal t ((ByNeed.allocate f >>= g) s) := by
  rw [bind_apply]
  exact h

end Turn.Follows

/-- The machine has the value, and the stack is as it was. -/
def Machine.gives (m : Machine) (d : Datum) (s : ByNeed.Store) : Turn :=
  .next (.give d) (m.withStore s)

namespace ByNeed

variable {answers : Answers} {height : Nat}

theorem conclude_follows (m : Machine) (d : Datum) (rule : Summary → Rule) :
    (m.conclude d rule).Follows answers height m.gives (conclude d rule m.store) :=
  ⟨0, rfl⟩

theorem ofExcept_follows {α β : Type} {goal : β → Store → Turn} {x : Except EvalError α}
    {f : α → Evaluation β} {m : Machine} {t : Turn} (he : ∀ e, x = .error e → t = m.fail e)
    (hf : ∀ a, x = .ok a → t.Follows answers height goal (f a m.store)) :
    t.Follows answers height goal ((ofExcept x >>= f) m.store) := by
  rw [bind_apply]
  cases x with
  | ok a => exact hf a rfl
  | error e => exact ⟨0, m, he e rfl⟩

theorem force_follows (m : Machine) {id : ThunkId} {task : Task} {ready : Datum → Machine → Turn}
    {eval : Scope → Expr → Evaluation Datum}
    (he : ∀ scope e (m : Machine),
      (Turn.next (.eval e scope) m).Follows answers height m.gives (eval scope e m.store)) :
    (m.force id task ready).Follows answers height
      (fun found s => if found.2 then (m.push task).gives found.1 s
        else ready found.1 (m.withStore s))
      (force eval id m.store) := by
  cases hs : (m.heap.thunk id).state with
  | forced d =>
    rw [Machine.force_of_forced hs, force_of_forced hs]
    exact ⟨0, rfl⟩
  | forcing =>
    rw [Machine.force_of_forcing hs, force_of_forcing hs]
    exact ⟨0, m, rfl⟩
  | unforced =>
    rw [Machine.force_of_unforced hs, force_of_unforced hs]
    refine .bind (he _ _ (m.enter id task)) fun d s => ?_
    -- What is kept is kept in the turn after the value is there.
    exact ⟨1, rfl⟩

theorem demand_follows (m : Machine) {id : ThunkId} {task : Task} {rule : Bool → Summary → Rule}
    {eval : Scope → Expr → Evaluation Datum}
    (he : ∀ scope e (m : Machine),
      (Turn.next (.eval e scope) m).Follows answers height m.gives (eval scope e m.store))
    (ht : ∀ d (m : Machine), m.apply d task = m.conclude d (rule true)) :
    (m.force id task fun d m => m.conclude d (rule false)).Follows answers height m.gives
      ((do
        let found ← force eval id
        conclude found.1 (rule found.2) : Evaluation Datum) m.store) := by
  refine .bind (force_follows m he) fun found s => ?_
  obtain ⟨d, derived⟩ := found
  cases derived with
  | true => exact .give (m := m.withStore s) (ht _ _ ▸ conclude_follows (m.withStore s) _ _)
  | false => exact conclude_follows (m.withStore s) _ _

theorem body_follows {eval : Scope → Expr → Evaluation Datum} (frame : FrameId) (outer : Scope)
    (body : List Stmt) (m : Machine)
    (he : ∀ scope e (m : Machine),
      (Turn.next (.eval e scope) m).Follows answers height m.gives (eval scope e m.store)) :
    let start := m.enterBlock frame outer body
    (Turn.next start.1 start.2).Follows answers height m.gives
      (evaluateBody eval (frame :: outer) body ⟨m.heap.bindAll frame outer body, m.tape⟩) := by
  cases hb : Stmt.lastExpr? body with
  | none =>
    simp only [Machine.enterBlock, evaluateBody, hb]
    exact ⟨0, rfl⟩
  | some e =>
    simp only [Machine.enterBlock, evaluateBody, hb]
    refine .bind (he (frame :: outer) e
      ((m.withHeap (m.heap.bindAll frame outer body)).push .blockDone)) fun d s => ?_
    exact .give (m := m.withStore s) (conclude_follows (m.withStore s) _ _)

/-- The machine evaluates an expression as the evaluator does. -/
theorem evaluate_follows (answers : Answers) (height : Nat) (scope : Scope) (e : Expr)
    (m : Machine) : (Turn.next (.eval e scope) m).Follows answers height m.gives
      (evaluate answers height scope e m.store) := by
  induction height generalizing scope e m with
  | zero => exact ⟨_, _, rfl⟩
  | succ height ih =>
    refine .step ?_
    cases e with
    | number n => exact conclude_follows m _ _
    | boolean b => exact conclude_follows m _ _
    | input question =>
      simp only [evaluate, Machine.step, Machine.eval, Machine.evalInput]
      cases answers.get? question.text with
      | some answer => exact conclude_follows m _ _
      | none => exact ⟨0, m, rfl⟩
    | record fields => exact .allocate (conclude_follows (m.withHeap _) _ _)
    | function name params body => exact .allocate (conclude_follows (m.withHeap _) _ _)
    | name slot =>
      refine .read ?_
      cases hl : m.heap.lookup slot scope with
      | none =>
        simp only [Machine.step, Machine.eval, Machine.evalName, Machine.store_heap, hl]
        exact .fail
      | some binding =>
        cases binding with
        | value d =>
          simp only [Machine.step, Machine.eval, Machine.evalName, Machine.store_heap, hl]
          exact conclude_follows m _ _
        | delayed id =>
          simp only [Machine.step, Machine.eval, Machine.evalName, Machine.store_heap, hl]
          exact demand_follows m ih fun _ _ => rfl
    | binary op left right =>
      refine .bind (ih scope left (m.push _)) fun l s => .give (m := m.withStore s) ?_
      refine .bind (ih scope right ((m.withStore s).push _)) fun r s' =>
        .give (m := m.withStore s') ?_
      refine ofExcept_follows (m := m.withStore s') (fun e h => ?_) (fun d h => ?_)
      · simp only [Machine.apply, h]
      · simp only [Machine.apply, h]
        exact conclude_follows _ _ _
    | unary op operand =>
      refine .bind (ih scope operand (m.push _)) fun d s => .give (m := m.withStore s) ?_
      refine ofExcept_follows (m := m.withStore s) (fun e h => ?_) (fun d h => ?_)
      · simp only [Machine.apply, h]
      · simp only [Machine.apply, h]
        exact conclude_follows _ _ _
    | logical op left right =>
      refine .bind (ih scope left (m.push _)) fun l s => .give (m := m.withStore s) ?_
      refine ofExcept_follows (m := m.withStore s) (fun e h => ?_) (fun b h => ?_)
      · simp only [Machine.apply, h]
      · simp only [Machine.apply, h]
        refine .ite (fun _ => conclude_follows _ _ _) fun _ => ?_
        refine .bind (ih scope right ((m.withStore s).push _)) fun r s' =>
          .give (m := m.withStore s') ?_
        refine ofExcept_follows (m := m.withStore s') (fun e h => ?_) (fun _ h => ?_)
        · simp only [Machine.apply, h]
        · simp only [Machine.apply, h]
          exact conclude_follows _ _ _
    | conditional predicate consequent alternate =>
      refine .bind (ih scope predicate (m.push _)) fun p s => .give (m := m.withStore s) ?_
      refine ofExcept_follows (m := m.withStore s) (fun e h => ?_) (fun taken h => ?_)
      · simp only [Machine.apply, h]
      · simp only [Machine.apply, h]
        refine .bind (ih scope _ ((m.withStore s).push _)) fun d s' =>
          .give (m := m.withStore s') ?_
        exact conclude_follows _ _ _
    | access base field =>
      refine .bind (ih scope base (m.push _)) fun b s => .give (m := m.withStore s) ?_
      cases b with
      | record record =>
        refine .read ?_
        cases hf : s.heap.field? record field with
        | none =>
          simp only [Machine.apply, Machine.readField, Machine.withStore, hf]
          exact .fail
        | some id =>
          simp only [Machine.apply, Machine.readField, Machine.withStore, hf]
          exact demand_follows (m.withStore s) ih fun _ _ => rfl
      | _ => exact .fail
    | block body =>
      cases body with
      | nil => exact .fail (s := m.store)
      | cons stmt rest =>
        exact body_follows m.heap.addFrame.1 scope (stmt :: rest) (m.withHeap m.heap.addFrame.2) ih
    | call callee args =>
      refine .bind (ih scope callee (m.push _)) fun c s => .give (m := m.withStore s) ?_
      cases c with
      | closure id =>
        refine .read ?_
        refine .ite (fun _ => ?_) fun _ => .fail
        refine .allocate (.bind (ih _ _ ((m.withStore
          ⟨(s.heap.openCall (s.heap.closure id) args scope).2, s.tape⟩).push .callDone))
          fun d s' => .give (m := m.withStore s') ?_)
        exact conclude_follows _ _ _
      | _ => exact .fail

def KeepsRecords {α : Type} (x : Evaluation α) : Prop :=
  ∀ s a s', x s = some (.ok (a, s')) → s.heap.KeepsRecords s'.heap

namespace KeepsRecords

variable {α β : Type}

theorem bind {x : Evaluation α} {f : α → Evaluation β} (hx : KeepsRecords x)
    (hf : ∀ a, KeepsRecords (f a)) : KeepsRecords (x >>= f) := by
  intro s b s'' h
  rw [bind_apply] at h
  match hs : x s with
  | some (.ok (a, s')) =>
    rw [hs] at h
    exact (hx s a s' hs).trans (hf a s' b s'' h)
  | some (.error halt) =>
    rw [hs] at h
    cases h
  | none =>
    rw [hs] at h
    cases h

theorem pure (a : α) : KeepsRecords (Pure.pure a) := by
  intro s a s' h
  cases h
  exact .refl _

theorem read (f : Heap → α) : KeepsRecords (read f) := by
  intro s a s' h
  cases h
  exact .refl _

theorem conclude (d : Datum) (rule : Summary → Rule) : KeepsRecords (conclude d rule) := by
  intro s a s' h
  cases h
  exact .refl _

theorem forM {f : α → Evaluation Unit} (hf : ∀ a, KeepsRecords (f a)) (as : List α) :
    KeepsRecords (as.forM f) := by
  induction as with
  | nil => exact pure ()
  | cons a as ih => exact (hf a).bind fun _ => ih

theorem evaluate (answers : Answers) (height : Nat) (scope : Scope) (e : Expr) :
    KeepsRecords (evaluate answers height scope e) := by
  intro s d s' h
  have hf := evaluate_follows answers height scope e ⟨s.heap, [], s.tape, []⟩
  rw [show Machine.store ⟨s.heap, [], s.tape, []⟩ = s from rfl, h] at hf
  obtain ⟨k, hk⟩ := hf
  exact Turn.keepsRecords_of_later hk

theorem force {eval : Scope → Expr → Evaluation Datum}
    (he : ∀ scope e, KeepsRecords (eval scope e)) (id : ThunkId) :
    KeepsRecords (force eval id) := by
  intro s found s' h
  cases hs : (s.heap.thunk id).state with
  | forced d =>
    rw [force_of_forced hs] at h
    cases h
    exact .refl _
  | forcing =>
    rw [force_of_forcing hs] at h
    cases h
  | unforced =>
    rw [force_of_unforced hs] at h
    have hk := ((he _ _).bind fun d => ?_) _ _ _ h
    · exact hk
    · intro s a s' h
      cases h
      exact .refl _

theorem completeField {eval : Scope → Expr → Evaluation Datum}
    {complete : String → Datum → Evaluation Unit} (he : ∀ scope e, KeepsRecords (eval scope e))
    (hc : ∀ field d, KeepsRecords (complete field d)) (field : String × ThunkId) :
    KeepsRecords (completeField eval complete field) := by
  refine (force he field.2).bind fun found => ?_
  split
  · exact hc _ _
  · exact (conclude _ _).bind fun d => hc _ _

theorem complete (answers : Answers) (height : Nat) (opened : List RecordId) (field : String)
    (d : Datum) : KeepsRecords (complete answers height opened field d) := by
  induction height generalizing opened field d with
  | zero => exact fun _ _ _ h => nomatch h
  | succ height ih =>
    cases d with
    | record record =>
      simp only [ByNeed.complete]
      split
      · exact fun _ _ _ h => nomatch h
      · refine .bind (.read _) fun fields => .bind (.forM (fun f => ?_) fields) fun _ =>
          .bind (.conclude _ _) fun _ => .pure _
        exact .completeField (.evaluate answers height) (ih _) f
    | _ => exact .pure _

end KeepsRecords

theorem field_follows {record : RecordId} {i : Nat} {field : String × ThunkId}
    (ih : ∀ d (m : Machine), (Turn.next (.give d) (m.push .complete)).Follows answers height
      (fun _ => m.gives d) (complete answers height m.opened m.leadingField d m.store))
    (m : Machine) (hm : (m.heap.record record)[i]? = some field) :
    (m.completeField record i).Follows answers height
      (fun _ s => (m.withStore s).completeField record (i + 1))
      (completeField (evaluate answers height) (complete answers height m.opened) field
        m.store) := by
  obtain ⟨name, id⟩ := field
  let waiting := m.push (.recordField record i)
  have hcomplete (d : Datum) (s : Store) (hs : m.heap.KeepsRecords s.heap) :
      ((waiting.push .complete).gives d s).Follows answers height
        (fun _ s => (m.withStore s).completeField record (i + 1))
        (complete answers height m.opened name d s) := by
    have hr : s.heap.record record = m.heap.record record :=
      hs.eq_of_lt (List.getElem?_eq_some_iff.mp hm).1
    -- The field can be named still, since no record has changed.
    have hl : (waiting.withStore s).leadingField = name := by
      simp only [waiting, Machine.leadingField, Machine.push_withStore, Machine.push_stack]
      show ((s.heap.record record)[i]?.map Prod.fst).getD "record" = name
      rw [hr, hm]
      rfl
    have hd := ih d (waiting.withStore s)
    rw [hl] at hd
    exact hd.trans fun _ s' => ⟨1, rfl⟩
  simp only [Machine.completeField, hm]
  refine .bind_of_eq (force_follows waiting (evaluate_follows answers height))
    fun found s hs => ?_
  have hk := KeepsRecords.force (.evaluate answers height) id _ _ _ hs
  obtain ⟨d, derived⟩ := found
  cases derived with
  | true => exact hcomplete d s hk
  | false =>
    exact .bind_of_eq (conclude_follows ((waiting.withStore s).push .complete) _ _)
      fun d' s' hs' => hcomplete d' s' (hk.trans (KeepsRecords.conclude _ _ _ _ _ hs'))

theorem fields_follow {record : RecordId}
    (ih : ∀ d (m : Machine), (Turn.next (.give d) (m.push .complete)).Follows answers height
      (fun _ => m.gives d) (complete answers height m.opened m.leadingField d m.store))
    (done rest : List (String × ThunkId)) (m : Machine)
    (hm : m.heap.record record = done ++ rest) :
    (m.completeField record done.length).Follows answers height
      (fun _ => m.closeResult.gives (.record record))
      ((do
        rest.forM (completeField (evaluate answers height) (complete answers height m.opened))
        let _ ← conclude (.record record) (.record ((done ++ rest).map Prod.fst)) :
          Evaluation Unit) m.store) := by
  induction rest generalizing done m with
  | nil =>
    have hn : (done ++ [])[done.length]? = none := by simp
    simp only [Machine.completeField, hm, hn, Heap.fieldNames]
    exact ⟨0, rfl⟩
  | cons field rest ihr =>
    have hi : (m.heap.record record)[done.length]? = some field := by simp [hm]
    have hcons (f : String × ThunkId → Evaluation Unit) :
        (field :: rest).forM f = f field >>= fun _ => rest.forM f := rfl
    rw [hcons, bind_assoc]
    refine .bind_of_eq (field_follows ih m hi) fun _ s hs => ?_
    have hk : s.heap.record record = m.heap.record record :=
      (KeepsRecords.completeField (.evaluate answers height) (.complete answers height m.opened)
        field _ _ _ hs).eq_of_lt (List.getElem?_eq_some_iff.mp hi).1
    have hs' := ihr (done ++ [field]) (m.withStore s) (by
      rw [List.append_assoc]
      exact hk.trans hm)
    rw [List.length_append, List.append_assoc] at hs'
    exact hs'

/-- The machine completes a value as the evaluator does, and closes the records it opens. -/
theorem complete_follows (answers : Answers) (height : Nat) (d : Datum) (m : Machine) :
    (Turn.next (.give d) (m.push .complete)).Follows answers height (fun _ => m.gives d)
      (complete answers height m.opened m.leadingField d m.store) := by
  induction height generalizing d m with
  | zero => exact ⟨_, _, rfl⟩
  | succ height ih =>
    refine .step ?_
    cases d with
    | record record =>
      refine .ite (fun _ => .fail) fun _ => .read ?_
      exact fields_follow ih [] _ (m.openResult record) rfl
    | _ => exact ⟨0, rfl⟩

end ByNeed

end Inquiry
