import Inquiry.Proofs.Derivation.Tree
import Inquiry.Proofs.Heap.Records
set_option autoImplicit false

/-!
The balance of a tape. A turn writes at most one node, and what it takes off the tape and puts
there is what the tasks of the machine give up and gain.
-/

namespace Inquiry

/-- How many derivations a task finds on the tape besides that of the value it waits for. -/
def Task.held : Task → Nat
  | .binaryApply _ _ | .logicalApply _ | .branchDone _ | .accessDone _ | .callDone => 1
  -- The record comes first, then its fields up to the one that is being completed.
  | .recordField _ i => 1 + i
  | _ => 0

def Task.heldAll : List Task → Nat
  | [] => 0
  | task :: stack => task.held + heldAll stack

def Control.held : Control → Nat
  | .eval _ _ => 0
  | .give _ => 1

def Task.Open (h : Heap) : Task → Prop
  | .recordField record i => i < (h.record record).length
  | _ => True

theorem Task.Open.mono {h later : Heap} {task : Task} (hk : h.KeepsRecords later)
    (ht : task.Open h) : task.Open later := by
  cases task with
  | recordField record i =>
    have hi : i < (h.record record).length := ht
    rw [Task.Open, hk.eq_of_lt hi]
    exact hi
  | _ => trivial

/-- What a tape gets while the number of derivations that are held goes from `before` to `after`:
nothing, or a node on top of some of them. -/
inductive Tape.Gets (tape : Tape) (before : Nat) (tape' : Tape) (after : Nat) : Prop where
  | nothing (ht : tape' = tape) (hn : after = before)
  | node (rule : Rule) (rest : Nat) (ht : tape' = tape.emit rule)
      (hb : before = rule.arity + rest) (ha : after = 1 + rest)

namespace Machine

def held (m : Machine) : Nat := Task.heldAll m.stack

@[simp] theorem held_push (m : Machine) (task : Task) :
    (m.push task).held = task.held + m.held := rfl

@[simp] theorem held_withHeap (m : Machine) (heap : Heap) : (m.withHeap heap).held = m.held := rfl

@[simp] theorem held_write (m : Machine) (d : Datum) (rule : Summary → Rule) :
    (m.write d rule).held = m.held := rfl

@[simp] theorem held_enter (m : Machine) (id : ThunkId) (task : Task) :
    (m.enter id task).held = task.held + m.held := by simp [enter, Task.held]

@[simp] theorem held_openResult (m : Machine) (record : RecordId) :
    (m.openResult record).held = m.held := rfl

@[simp] theorem held_closeResult (m : Machine) : m.closeResult.held = m.held := rfl

@[simp] theorem tape_openResult (m : Machine) (record : RecordId) :
    (m.openResult record).tape = m.tape := rfl

variable {answers : Answers} {m m' : Machine} {control next : Control}

def AllOpen (m : Machine) : Prop := ∀ task ∈ m.stack, task.Open m.heap

@[simp] theorem allOpen_push {task : Task} :
    (m.push task).AllOpen ↔ task.Open m.heap ∧ m.AllOpen := List.forall_mem_cons

@[simp] theorem allOpen_write {d : Datum} {rule : Summary → Rule} :
    (m.write d rule).AllOpen ↔ m.AllOpen := .rfl

@[simp] theorem allOpen_openResult {record : RecordId} :
    (m.openResult record).AllOpen ↔ m.AllOpen := .rfl

theorem AllOpen.withHeap {heap : Heap} (h : m.AllOpen) (hk : m.heap.KeepsRecords heap) :
    (m.withHeap heap).AllOpen := fun task ht => (h task ht).mono hk

theorem AllOpen.enter {id : ThunkId} {task : Task} (h : m.AllOpen) (ht : task.Open m.heap) :
    (m.enter id task).AllOpen := by
  have hk : (m.withHeap (m.heap.setState id .forcing)).AllOpen :=
    h.withHeap Heap.keepsRecords_setState
  exact allOpen_push.mpr ⟨trivial, allOpen_push.mpr ⟨ht.mono Heap.keepsRecords_setState, hk⟩⟩

theorem AllOpen.fieldMove {record : RecordId} {i : Nat} (h : m.AllOpen)
    (hf : FieldMove record i m (.next next m')) : m'.AllOpen := by
  cases hf with
  | ready hf hs =>
    have hi : i < (m.heap.record record).length := (List.getElem?_eq_some_iff.mp hf).1
    simpa [Task.Open, hi] using h
  | start hf hs =>
    have hi : i < (m.heap.record record).length := (List.getElem?_eq_some_iff.mp hf).1
    exact AllOpen.enter (allOpen_push.mpr ⟨hi, h⟩) trivial
  | close hf => exact h

theorem AllOpen.step (h : m.AllOpen) (hs : m.step answers control = .next next m') :
    m'.AllOpen := by
  cases move_of_step hs with
  | record ho => exact h.withHeap (Heap.keepsRecords_openRecord ho)
  | function ho => exact h.withHeap (Heap.keepsRecords_addClosure ho)
  | nameStart => exact h.enter trivial
  | accessStart => exact (allOpen_push.mp h).2.enter trivial
  | memoize => exact (allOpen_push.mp h).2.withHeap Heap.keepsRecords_setState
  | block ho =>
    exact allOpen_push.mpr ⟨trivial, h.withHeap (Heap.keepsRecords_openBlock ho)⟩
  | blockOfNames _ ho => exact h.withHeap (Heap.keepsRecords_openBlock ho)
  | callee _ ho =>
    have hm := (allOpen_push.mp h).2
    exact allOpen_push.mpr ⟨trivial, hm.withHeap (Heap.keepsRecords_openCall ho)⟩
  | completeRecord _ hf => exact (allOpen_openResult.mpr (allOpen_push.mp h).2).fieldMove hf
  | recordField hf => exact (allOpen_push.mp h).2.fieldMove hf
  | _ => simpa [Task.Open] using h

theorem gets_of_fieldMove {record : RecordId} {i : Nat}
    (hi : i ≤ (m.heap.record record).length) (h : FieldMove record i m (.next next m')) :
    m.tape.Gets (1 + i + m.held) m'.tape (next.held + m'.held) := by
  cases h with
  | ready hf hs =>
    exact .node _ _ rfl (by simp +arith [Task.held, Rule.arity]) rfl
  | start hf hs => exact .nothing rfl (by simp [Control.held, Task.held])
  | close hf =>
    have hl : (m.heap.record record).length ≤ i := List.getElem?_eq_none_iff.mp hf
    have hnames : (m.heap.fieldNames record).length = i := by
      simp only [Heap.fieldNames, List.length_map]
      omega
    exact .node (.record (m.heap.fieldNames record) _) _ rfl (by simp [Rule.arity, hnames]) rfl

/-- A turn writes what balances the derivations held before and after it. -/
theorem gets_of_step (ho : m.AllOpen) (hs : m.step answers control = .next next m') :
    m.tape.Gets (control.held + m.held) m'.tape (next.held + m'.held) := by
  cases move_of_step hs with
  | @completeRecord m record _ hn hf =>
    have hw := gets_of_fieldMove (Nat.zero_le _) hf
    simpa [Control.held, Task.held] using hw
  | @recordField m d record i _ hf =>
    have hi : i < (m.heap.record record).length := ho (.recordField record i) (by simp)
    have hw := gets_of_fieldMove hi hf
    have he : (Control.give d).held + (m.push (.recordField record i)).held =
        1 + (i + 1) + m.held := by
      simp +arith [Control.held, Task.held]
    rw [he]
    exact hw
  | binary | unary | logical | conditional | access | call | nameStart | accessStart | block
  | binaryRight | logicalRight | branch | memoize | callee | completePlain =>
    exact .nothing rfl (by simp [Control.held, Task.held])
  | _ => exact .node _ _ rfl (by simp +arith [Control.held, Task.held, Rule.arity]) rfl

end Machine

def Tape.Holds (tape : Tape) (n : Nat) : Prop :=
  tape.enabled = true ∧ ∃ trees : List Derivation,
    tape.tokens.toList = trees.flatMap Derivation.tokens ∧ trees.length = n

namespace Tape

theorem holds_empty : (Tape.empty true).Holds 0 := ⟨rfl, [], rfl, rfl⟩

theorem Holds.emit {tape : Tape} {rule : Rule} {rest : Nat} (h : tape.Holds (rule.arity + rest)) :
    (tape.emit rule).Holds (1 + rest) := by
  obtain ⟨tokens, enabled⟩ := tape
  obtain ⟨he, trees, ht, hl⟩ := h
  obtain rfl : enabled = true := he
  have ha : rule.arity ≤ trees.length := by omega
  obtain ⟨before, t, rfl, rfl⟩ := Derivation.exists_of_arity_le ha
  refine ⟨rfl, before ++ [t], ?_, ?_⟩
  · simp only at ht
    simp [Tape.emit, append, ht, t.tokens_eq]
  · rw [List.length_append, t.length_premises] at hl
    simp
    omega

theorem Holds.gets {tape tape' : Tape} {before after : Nat} (h : tape.Holds before)
    (hg : tape.Gets before tape' after) : tape'.Holds after := by
  cases hg with
  | nothing ht hn => rwa [ht, hn]
  | node rule rest ht hb ha =>
    rw [ht, ha]
    rw [hb] at h
    exact h.emit

theorem gets_disabled {tape tape' : Tape} {before after : Nat} (h : tape = .empty false)
    (hg : tape.Gets before tape' after) : tape' = .empty false := by
  cases hg with
  | nothing ht hn => rw [ht, h]
  | node rule rest ht hb ha =>
    rw [ht, h]
    rfl

end Tape

end Inquiry
