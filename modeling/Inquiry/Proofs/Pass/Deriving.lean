import Inquiry.Proofs.Derivation.Writing
import Inquiry.Proofs.Pass.Materialization
set_option autoImplicit false

/-!
How a turn derives what was delayed. The task that keeps the value of a delayed expression comes
off the stack, then at once the one that shows how the value was reached, if a name or a field is
waiting for it. No other turn writes down a derivation under a name or in a field.
-/

namespace Inquiry

def Task.shows : Task → Bool
  | .nameDone _ | .accessDone _ => true
  | _ => false

theorem Task.kept?_of_shows {task : Task} (hs : task.shows = true) : task.kept? = none := by
  cases task with
  | memoize => cases hs
  | _ => rfl

namespace Heap

variable {h later : Heap}

theorem KeepsStates.forced?_eq (hk : h.KeepsStates later) (id : ThunkId) :
    later.forced? id = h.forced? id := by
  have hstate : (later.thunk id).state = (h.thunk id).state := hk id
  simp only [forced?, hstate]

theorem forced?_setState_forcing {id : ThunkId} (hf : (h.thunk id).state = .unforced)
    (other : ThunkId) : (h.setState id .forcing).forced? other = h.forced? other := by
  by_cases he : other = id ∧ id.index < h.thunks.size
  · obtain ⟨rfl, hi⟩ := he
    simp [forced?, thunk_setState, hi, hf]
  · simp only [forced?, thunk_setState, if_neg he]

end Heap

namespace Machine

def shows (m : Machine) : Bool := m.stack.head?.any Task.shows

/-- What shows a derivation waits right below what keeps the value. -/
def Covered (m : Machine) : Prop :=
  m.stack.IsChain fun above below => below.shows = true → above.kept?.isSome = true

/-- The value that is handed over, if one is, is neither to be kept nor to be shown. -/
def Quiet (m : Machine) (control : Control) : Prop :=
  ∀ d, control = .give d → ∀ task ∈ m.stack.head?, task.kept? = none ∧ task.shows = false

/-- A turn keeps the value of a delayed expression, or shows how such a value was reached, or does
nothing of the kind. -/
inductive Deriving : Control → Machine → Control → Machine → Prop where
  | keeps {m : Machine} {d : Datum} {id : ThunkId} (hi : id.index < m.heap.thunks.size) :
      Deriving (.give d) (m.push (.memoize id)) (.give d)
        (m.withHeap (m.heap.setState id (.forced d)))
  | shows {m : Machine} {d : Datum} {task : Task} {rule : Rule} (ht : task.shows = true)
      (hr : rule.derives = true) : Deriving (.give d) (m.push task) (.give d) (m.emit rule)
  | other {control next : Control} {m m' : Machine} (hq : m.Quiet control)
      (ht : m'.tape = m.tape ∨ ∃ rule : Rule, rule.derives = false ∧ m'.tape = m.tape.emit rule)
      (hf : ∀ id, m'.heap.forced? id = m.heap.forced? id) (hs : m'.shows = false)
      (hc : m'.Covered) : Deriving control m next m'

variable {answers : Answers} {parents : Parents} {m m' : Machine} {control next : Control}
  {task : Task}

theorem covered_push : (m.push task).Covered ↔
    (m.shows = true → task.kept?.isSome = true) ∧ m.Covered := by
  obtain ⟨heap, stack, tape, opened⟩ := m
  cases stack <;> simp [Covered, shows, push]

theorem Covered.of_push (h : (m.push task).Covered) (hk : task.kept? = none) :
    m.shows = false ∧ m.Covered := by
  obtain ⟨htop, hrest⟩ := covered_push.mp h
  refine ⟨?_, hrest⟩
  rw [hk] at htop
  simpa using htop

theorem Covered.push (h : m.Covered) (hs : m.shows = false) (task : Task) :
    (m.push task).Covered := covered_push.mpr ⟨by simp [hs], h⟩

theorem Covered.enter {id : ThunkId} (h : m.Covered) (hs : m.shows = false) (task : Task) :
    (m.enter id task).Covered := by
  have hheap : (m.withHeap (m.heap.setState id .forcing)).Covered := h
  exact covered_push.mpr ⟨fun _ => rfl, hheap.push hs task⟩

theorem quiet_push (hk : task.kept? = none) (hs : task.shows = false) :
    (m.push task).Quiet control := by
  intro _ _ top htop
  cases htop
  exact ⟨hk, hs⟩

theorem deriving_of_fieldMove {record : RecordId} {i : Nat} {before : Machine}
    (hq : before.Quiet control) (ht : m.tape = before.tape) (hh : m.heap = before.heap)
    (hs : m.shows = false) (hc : m.Covered) (hf : FieldMove record i m (.next next m')) :
    Deriving control before next m' := by
  have hfield := hc.push hs (.recordField record i)
  cases hf with
  | @ready name _ d =>
    exact .other hq (.inr ⟨.name name false (m.heap.summary d), rfl, ht ▸ rfl⟩)
      (fun _ => hh ▸ rfl) rfl (hfield.push rfl .complete)
  | start _ hu =>
    exact .other hq (.inl ht) (hh ▸ Heap.forced?_setState_forcing hu) rfl
      (hfield.enter rfl .complete)
  | close =>
    let rule : Rule := .record (m.heap.fieldNames record) (m.heap.summary (.record record))
    exact .other hq (.inr ⟨rule, rfl, ht ▸ rfl⟩)
      (fun _ => hh ▸ rfl) hs hc

theorem deriving_of_step (hm : m.Sound parents) (hc : m.Covered)
    (hi : ∀ e scope, control = .eval e scope → m.shows = false)
    (hs : m.step answers control = .next next m') : Deriving control m next m' := by
  cases move_of_step hs with
  | number | boolean | answered | nameBound | nameReady =>
    exact .other nofun (.inr ⟨_, rfl, rfl⟩) (fun _ => rfl) (hi _ _ rfl) hc
  | record ho =>
    obtain ⟨_, _, _, hopens, rfl⟩ := Heap.openRecord_opens ho
    exact .other nofun (.inr ⟨_, rfl, rfl⟩) hopens.keepsStates.forced?_eq (hi _ _ rfl) hc
  | function ho =>
    cases ho
    exact .other nofun (.inr ⟨_, rfl, rfl⟩) (fun _ => rfl) (hi _ _ rfl) hc
  | nameStart _ hu =>
    exact .other nofun (.inl rfl) (Heap.forced?_setState_forcing hu) rfl
      (hc.enter (hi _ _ rfl) _)
  | binary | unary | logical | conditional | access | call =>
    exact .other nofun (.inl rfl) (fun _ => rfl) rfl (hc.push (hi _ _ rfl) _)
  | block ho =>
    obtain ⟨_, _, hopens⟩ := Heap.openBlock_opens ho
    have hheap : (m.withHeap _).Covered := hc
    exact .other nofun (.inl rfl) hopens.keepsStates.forced?_eq rfl
      (hheap.push (hi _ _ rfl) .blockDone)
  | blockOfNames _ ho =>
    obtain ⟨_, _, hopens⟩ := Heap.openBlock_opens ho
    exact .other nofun (.inr ⟨_, rfl, rfl⟩) hopens.keepsStates.forced?_eq (hi _ _ rfl) hc
  | binaryRight | logicalRight | branch =>
    obtain ⟨hs, hrest⟩ := hc.of_push rfl
    exact .other (quiet_push rfl rfl) (.inl rfl) (fun _ => rfl) rfl (hrest.push hs _)
  | accessStart _ hu =>
    obtain ⟨hs, hrest⟩ := hc.of_push rfl
    exact .other (quiet_push rfl rfl) (.inl rfl) (Heap.forced?_setState_forcing hu) rfl
      (hrest.enter hs _)
  | callee _ ho =>
    obtain ⟨hs, hrest⟩ := hc.of_push rfl
    obtain ⟨_, _, hopens⟩ := Heap.openCall_opens ho
    have hheap : (Machine.withHeap _ _).Covered := hrest
    exact .other (quiet_push rfl rfl) (.inl rfl) hopens.keepsStates.forced?_eq rfl
      (hheap.push hs .callDone)
  | accessDone | nameDone => exact .shows rfl rfl
  | memoize => exact .keeps (sound_push.mp hm).1
  | completePlain =>
    obtain ⟨hs, hrest⟩ := hc.of_push rfl
    exact .other (quiet_push rfl rfl) (.inl rfl) (fun _ => rfl) hs hrest
  | @completeRecord m record _ _ hf =>
    obtain ⟨hs, hrest⟩ := hc.of_push rfl
    exact deriving_of_fieldMove (m := m.openResult record) (quiet_push rfl rfl) rfl rfl hs hrest hf
  | @recordField m _ _ _ _ hf =>
    obtain ⟨hs, hrest⟩ := hc.of_push rfl
    exact deriving_of_fieldMove (m := m) (quiet_push rfl rfl) rfl rfl hs hrest hf
  | _ =>
    obtain ⟨hs, hrest⟩ := hc.of_push rfl
    exact .other (quiet_push rfl rfl) (.inr ⟨_, rfl, rfl⟩) (fun _ => rfl) hs hrest

theorem covered_enterBlock {captureTrace : Bool} {body : List Stmt}
    (h : (initial captureTrace).enterBlock Heap.globalFrame [] body = (control, m)) :
    m.Covered ∧ m.shows = false := by
  obtain ⟨_, _, rfl, rfl⟩ | ⟨rfl, rfl⟩ := enterBlock_initial h <;>
    simp [Covered, shows, Task.shows]

end Machine

end Inquiry
