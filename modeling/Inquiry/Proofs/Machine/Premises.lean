import Inquiry.Proofs.Derivation.Justification
import Inquiry.Proofs.Heap.Records
import Inquiry.Proofs.Machine.Consultation
import Inquiry.Proofs.Operators
set_option autoImplicit false

/-!
The premises a machine has written down. A task finds the derivation of the value it waits for on
the tape, and below it those of the values it got earlier; nothing else is without a conclusion.
-/

namespace Inquiry

/-- The values a task will conclude from besides the one it waits for, the last first. -/
def Task.Holds (h : Heap) : Task → List Summary → Prop
  -- Nothing is said of a left operand that is no answer: the operator fails on it.
  | .binaryApply _ left, own => ∃ v, own = [v] ∧ ∀ a : Answer, left = a.datum → v = a.summary
  | .logicalApply op, own => own = [.boolean (!op.decider)]
  | .branchDone consequent, own => own = [.boolean consequent]
  | .accessDone field, own => ∃ names, own = [.record names] ∧ field ∈ names
  | .callDone, own => ∃ name, own = [.function name]
  -- The record was derived first, then its fields up to the one that is being completed.
  | .recordField record i, own =>
    i < (h.record record).length ∧
      ∃ values, values.length = i ∧ own = values ++ [.record (h.fieldNames record)]
  | _, own => own = []

/-- The values that the tasks of a stack will conclude from, the last first. -/
inductive Demand (h : Heap) : List Task → List Summary → Prop where
  | nil : Demand h [] []
  | cons {task : Task} {stack : List Task} {own values : List Summary} (ht : task.Holds h own)
      (hd : Demand h stack values) : Demand h (task :: stack) (own ++ values)

theorem Task.Holds.mono {h later : Heap} (hk : h.KeepsRecords later) {task : Task}
    {own : List Summary} (ht : task.Holds h own) : task.Holds later own := by
  cases task with
  | recordField record i =>
    obtain ⟨hi, values, hl, ho⟩ := ht
    have hr : later.record record = h.record record := hk.eq_of_lt hi
    refine ⟨by rw [hr]; exact hi, values, hl, ?_⟩
    rw [ho, Heap.fieldNames, Heap.fieldNames, hr]
  | _ => exact ht

theorem Demand.mono {h later : Heap} (hk : h.KeepsRecords later) {stack : List Task}
    {values : List Summary} (hd : Demand h stack values) : Demand later stack values := by
  induction hd with
  | nil => exact .nil
  | cons ht _ ih => exact .cons (ht.mono hk) ih

theorem Demand.recordField {h : Heap} {stack : List Task} {fields values : List Summary}
    {record : RecordId} {i : Nat} {field : String × ThunkId} (hd : Demand h stack values)
    (hf : (h.record record)[i]? = some field) (hl : fields.length = i) :
    Demand h (.recordField record i :: stack)
      (fields ++ [.record (h.fieldNames record)] ++ values) := by
  have hi : i < (h.record record).length := (List.getElem?_eq_some_iff.mp hf).1
  exact .cons ⟨hi, fields, hl, rfl⟩ hd

theorem Demand.of_push {m : Machine} {task : Task} {values : List Summary}
    (hd : Demand (m.push task).heap (m.push task).stack values) :
    ∃ own rest, values = own ++ rest ∧ task.Holds m.heap own ∧ Demand m.heap m.stack rest := by
  rw [Machine.push_heap, Machine.push_stack] at hd
  cases hd with
  | cons ht hd => exact ⟨_, _, rfl, ht, hd⟩

/-- The tape is a justified forest over these questions, and its roots have these values. -/
def Tape.Derives (answers : Answers) (asked : List String) (tape : Tape)
    (values : List Summary) : Prop :=
  ∃ forest : Forest, tape.Reads forest ∧ forest.Justified answers ∧
    forest.questions = asked ∧ forest.values = values

theorem Tape.Derives.emit {answers : Answers} {asked : List String} {tape : Tape} {rule : Rule}
    (premises : List Summary) {values : List Summary}
    (h : tape.Derives answers asked (premises ++ values))
    (hr : rule.Justified answers premises.reverse) :
    (tape.emit rule).Derives answers (asked ++ rule.question?.toList) (rule.value :: values) := by
  obtain ⟨forest, hreads, hj, hq, hv⟩ := h
  have ha : rule.arity ≤ forest.values.length := by
    rw [← hr.length_eq, hv]
    simp
  refine ⟨forest.add rule, hreads.emit ha, hj.add hr hv, ?_, hj.values_add hr hv⟩
  rw [Forest.questions_add, hq]

def Control.given (h : Heap) : Control → List Summary
  | .eval _ _ => []
  | .give d => [h.summary d]

def Machine.Derives (answers : Answers) (asked : List String) (control : Control)
    (m : Machine) : Prop :=
  ∃ values, m.tape.Derives answers asked (control.given m.heap ++ values) ∧
    Demand m.heap m.stack values

namespace Machine.Derives

variable {answers : Answers} {asked : List String} {m : Machine}

theorem keep {control : Control} {values : List Summary}
    (ht : m.tape.Derives answers asked (control.given m.heap ++ values))
    (hd : Demand m.heap m.stack values) : m.Derives answers (asked ++ []) control := by
  rw [List.append_nil]
  exact ⟨values, ht, hd⟩

theorem push {task : Task} {e : Expr} {scope : Scope} (own : List Summary)
    {values : List Summary} (ht : m.tape.Derives answers asked (own ++ values))
    (ho : task.Holds m.heap own) (hd : Demand m.heap m.stack values) :
    (m.push task).Derives answers (asked ++ []) (.eval e scope) :=
  keep ht (.cons ho hd)

theorem enter {id : ThunkId} {task : Task} {e : Expr} {scope : Scope} (own : List Summary)
    {values : List Summary} (ht : m.tape.Derives answers asked (own ++ values))
    (ho : task.Holds m.heap own) (hd : Demand m.heap m.stack values) :
    (m.enter id task).Derives answers (asked ++ []) (.eval e scope) := by
  have hk : m.heap.KeepsRecords (m.heap.setState id .forcing) := Heap.keepsRecords_setState
  have htask : Demand m.heap (task :: m.stack) (own ++ values) := .cons ho hd
  have hmemoize : Task.Holds (m.heap.setState id .forcing) (.memoize id) [] := rfl
  have hnext := Demand.cons hmemoize (htask.mono hk)
  exact keep ht hnext

theorem write {d : Datum} {rule : Summary → Rule} (premises : List Summary)
    {values : List Summary} (ht : m.tape.Derives answers asked (premises ++ values))
    (hr : (rule (m.heap.summary d)).Justified answers premises.reverse)
    (hv : (rule (m.heap.summary d)).value = m.heap.summary d)
    (hd : Demand m.heap m.stack values) :
    (m.write d rule).Derives answers (asked ++ (rule (m.heap.summary d)).question?.toList)
      (.give d) := by
  refine ⟨values, ?_, hd⟩
  have he := ht.emit premises hr
  rw [hv] at he
  exact he

theorem fieldMove {record : RecordId} {i : Nat} {next : Control} {m' : Machine}
    (fields : List Summary) {values : List Summary} (hf : FieldMove record i m (.next next m'))
    (hl : fields.length = i) (hi : i ≤ (m.heap.record record).length)
    (ht : m.tape.Derives answers asked
      (fields ++ [.record (m.heap.fieldNames record)] ++ values))
    (hd : Demand m.heap m.stack values) : m'.Derives answers (asked ++ []) next := by
  cases hf with
  | ready hf hs =>
    have hcomplete : Task.Holds m.heap .complete [] := rfl
    have hnext := Demand.cons hcomplete (hd.recordField hf hl)
    exact write [] ht trivial rfl hnext
  | start hf hs => exact enter [] ht rfl (hd.recordField hf hl)
  | close hf =>
    have hall : (m.heap.record record).length ≤ i := List.getElem?_eq_none_iff.mp hf
    refine write (m := m.closeResult) (fields ++ [Summary.record (m.heap.fieldNames record)])
      ht ?_ rfl hd
    rw [List.reverse_append]
    refine ⟨rfl, rfl, ?_⟩
    simp [Heap.fieldNames]
    omega

/-- A turn keeps to what the tape derives, and the question it consulted is on the tape. -/
theorem step {control next : Control} {m' : Machine} (h : m.Derives answers asked control)
    (hs : m.step answers control = .next next m') :
    m'.Derives answers (asked ++ (control.question?.map Question.text).toList) next := by
  obtain ⟨values, ht, hd⟩ := h
  cases move_of_step hs with
  | number => exact write [] ht trivial rfl hd
  | boolean => exact write [] ht trivial rfl hd
  | answered ha => exact write [] ht ⟨_, ha, m.heap.summary_datum _⟩ rfl hd
  | record ho => exact write [] ht trivial rfl (hd.mono (Heap.keepsRecords_openRecord ho))
  | function ho => exact write [] ht trivial rfl (hd.mono (Heap.keepsRecords_addClosure ho))
  | nameBound hl => exact write [] ht trivial rfl hd
  | nameReady hl hr => exact write [] ht trivial rfl hd
  | nameStart hl hu => exact enter [] ht rfl hd
  | binary => exact push [] ht rfl hd
  | unary => exact push [] ht rfl hd
  | logical => exact push [] ht rfl hd
  | conditional => exact push [] ht rfl hd
  | access => exact push [] ht rfl hd
  | call => exact push [] ht rfl hd
  | block ho he => exact push [] ht rfl (hd.mono (Heap.keepsRecords_openBlock ho))
  | blockOfNames hb ho he =>
    exact write [] ht rfl rfl (hd.mono (Heap.keepsRecords_openBlock ho))
  | binaryRight =>
    obtain ⟨own, rest, rfl, rfl, hrest⟩ := hd.of_push
    refine push [_] ht ⟨_, rfl, ?_⟩ hrest
    rintro a rfl
    exact Heap.summary_datum _ a
  | binaryApply hr =>
    obtain ⟨own, rest, rfl, ⟨v, rfl, hv⟩, hrest⟩ := hd.of_push
    obtain ⟨a, b, c, rfl, rfl, rfl⟩ := BinOp.apply_eq_ok hr
    exact write [_, v] ht
      ⟨a, b, c, hv a rfl, Heap.summary_datum _ b, hr, Heap.summary_datum _ c⟩ rfl hrest
  | unaryApply hr =>
    obtain ⟨own, rest, rfl, rfl, hrest⟩ := hd.of_push
    obtain ⟨a, c, rfl, rfl⟩ := UnaryOp.apply_eq_ok hr
    exact write [_] ht ⟨a, c, Heap.summary_datum _ a, hr, Heap.summary_datum _ c⟩ rfl hrest
  | logicalDecided =>
    obtain ⟨own, rest, rfl, rfl, hrest⟩ := hd.of_push
    exact write [_] ht ⟨rfl, rfl⟩ rfl hrest
  | logicalRight =>
    obtain ⟨own, rest, rfl, rfl, hrest⟩ := hd.of_push
    exact push [_] ht rfl hrest
  | logicalApply =>
    obtain ⟨own, rest, rfl, rfl, hrest⟩ := hd.of_push
    exact write [_, _] ht ⟨rfl, ⟨_, rfl⟩, rfl⟩ rfl hrest
  | branch =>
    obtain ⟨own, rest, rfl, rfl, hrest⟩ := hd.of_push
    exact push [_] ht rfl hrest
  | branchDone =>
    obtain ⟨own, rest, rfl, rfl, hrest⟩ := hd.of_push
    exact write [_, _] ht ⟨rfl, rfl⟩ rfl hrest
  | accessReady hf hr =>
    obtain ⟨own, rest, rfl, rfl, hrest⟩ := hd.of_push
    exact write [_] ht ⟨_, rfl, Heap.mem_fieldNames hf⟩ rfl hrest
  | accessStart hf hu =>
    obtain ⟨own, rest, rfl, rfl, hrest⟩ := hd.of_push
    exact enter [_] ht ⟨_, rfl, Heap.mem_fieldNames hf⟩ hrest
  | accessDone =>
    obtain ⟨own, rest, rfl, ⟨names, rfl, hm⟩, hrest⟩ := hd.of_push
    exact write [_, _] ht ⟨⟨names, rfl, hm⟩, rfl⟩ rfl hrest
  | nameDone =>
    obtain ⟨own, rest, rfl, rfl, hrest⟩ := hd.of_push
    exact write [_] ht rfl rfl hrest
  | memoize =>
    obtain ⟨own, rest, rfl, rfl, hrest⟩ := hd.of_push
    refine keep ?_ (hrest.mono Heap.keepsRecords_setState)
    simpa [Control.given] using ht
  | blockDone =>
    obtain ⟨own, rest, rfl, rfl, hrest⟩ := hd.of_push
    exact write [_] ht rfl rfl hrest
  | callee hn ho =>
    obtain ⟨own, rest, rfl, rfl, hrest⟩ := hd.of_push
    exact push [_] ht ⟨_, rfl⟩ (hrest.mono (Heap.keepsRecords_openCall ho))
  | callDone =>
    obtain ⟨own, rest, rfl, ⟨name, rfl⟩, hrest⟩ := hd.of_push
    exact write [_, _] ht ⟨⟨name, rfl⟩, rfl⟩ rfl hrest
  | completePlain hr =>
    obtain ⟨own, rest, rfl, rfl, hrest⟩ := hd.of_push
    exact keep ht hrest
  | completeRecord ho hf =>
    obtain ⟨own, rest, rfl, rfl, hrest⟩ := hd.of_push
    exact fieldMove [] hf rfl (Nat.zero_le _) ht hrest
  | recordField hf =>
    obtain ⟨own, rest, rfl, ⟨hi, fields, hl, rfl⟩, hrest⟩ := hd.of_push
    exact fieldMove (_ :: fields) hf (by simp [hl]) hi ht hrest

theorem run {gas turns : Nat} {control : Control} {d : Datum} (h : m.Derives answers asked control)
    (ho : (m.run answers gas turns control).outcome = .finished d) :
    (m.run answers gas turns control).machine.tape.Derives answers
      (asked ++ m.consulted answers gas control)
      [(m.run answers gas turns control).machine.heap.summary d] := by
  -- What was asked so far grows by what each turn consults, and `consulted` shrinks by it.
  induction gas generalizing asked turns control m with
  | zero => simp [Machine.run] at ho
  | succ gas ih =>
    cases hs : m.step answers control with
    | next next m' =>
      rw [run_succ_of_next hs] at ho ⊢
      rw [consulted_succ_of_next hs, ← List.append_assoc]
      exact ih (h.step hs) ho
    | stop outcome m' =>
      rw [run_succ_of_stop hs] at ho ⊢
      rw [consulted_succ_of_stop hs, List.append_nil]
      simp only at ho
      subst ho
      obtain ⟨values, ht, hd⟩ := h
      cases move_of_step hs with
      | finished hm =>
        rw [hm] at hd
        cases hd
        exact ht
      | completeRecord _ hf => cases hf
      | recordField hf => cases hf

end Machine.Derives

end Inquiry
