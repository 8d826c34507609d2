import Inquiry.Proofs.Pass.Course
import Inquiry.Proofs.Pass.Interruption
import Inquiry.Proofs.Pass.References
set_option autoImplicit false

namespace Inquiry

inductive ThunkState.Goes : ThunkState → ThunkState → Prop where
  | stay (state : ThunkState) : Goes state state
  | start : Goes .unforced .forcing
  | keep (d : Datum) : Goes .forcing (.forced d)

def Task.kept? : Task → Option ThunkId
  | .memoize id => some id
  | _ => none

namespace Heap

def state (h : Heap) (id : ThunkId) : ThunkState := (h.thunk id).state

variable {h later latest : Heap}

/-- All delayed expressions are where they were. What is new has not been started on. -/
def KeepsStates (h later : Heap) : Prop := ∀ id, later.state id = h.state id

theorem KeepsStates.trans (hl : h.KeepsStates later) (hr : later.KeepsStates latest) :
    h.KeepsStates latest := fun id => (hr id).trans (hl id)

theorem state_setState {id : ThunkId} (hi : id.index < h.thunks.size) (state : ThunkState)
    (other : ThunkId) :
    (h.setState id state).state other = if other = id then state else h.state other := by
  simp only [Heap.state, thunk_setState, hi, and_true]
  split <;> rfl

theorem state_of_le {id : ThunkId} (hi : h.thunks.size ≤ id.index) : h.state id = .unforced := by
  simp only [state, thunk, Array.getElem?_eq_none hi]
  rfl

theorem keepsStates_delay (label : String) (e : Expr) (scope : Scope) :
    h.KeepsStates (h.delay label e scope).2 := by
  intro id
  rw [state, thunk_delay]
  split
  · rename_i hi
    exact (state_of_le (Nat.le_of_eq hi.symm)).symm
  · rfl

theorem Declares.keepsStates {frame : FrameId} {scope : Scope} {bindings : List (Slot × Expr)}
    (hd : Declares frame scope bindings h later) : h.KeepsStates later := by
  induction hd with
  | nil => exact fun _ => rfl
  | delayed _ ih => exact (keepsStates_delay _ _ _).trans ih
  | function _ _ ih => exact ih

theorem Opens.keepsStates {frame : FrameId} {scope : Scope} {bindings : List (Slot × Expr)}
    (ho : h.Opens frame scope bindings later) : h.KeepsStates later := ho.declares.keepsStates

end Heap

namespace Machine

/-- The delayed expressions under evaluation, the one that was started on last first. -/
def underway (m : Machine) : List ThunkId := m.stack.filterMap Task.kept?

@[simp] theorem underway_push (m : Machine) (task : Task) :
    (m.push task).underway = task.kept?.toList ++ m.underway := by
  cases h : task.kept? <;> simp [underway, h]

def StartsOn (answers : Answers) (m : Machine) (control : Control) (id : ThunkId) : Prop :=
  ∃ m', m.step answers control = .next (.eval (m.heap.thunk id).expr (m.heap.thunk id).scope) m' ∧
    m'.stack.head? = some (.memoize id)

inductive Demands (m : Machine) : Control → ThunkId → Prop where
  | name {slot : Slot} {scope : Scope} {id : ThunkId}
      (hl : m.heap.lookup slot scope = some (.delayed id)) : Demands m (.eval (.name slot) scope) id
  | access {record : RecordId} {field : String} {rest : List Task} {id : ThunkId}
      (hm : m.stack = .access field :: rest) (hf : m.heap.field? record field = some id) :
      Demands m (.give (.record record)) id
  | firstField {record : RecordId} {rest : List Task} {name : String} {id : ThunkId}
      (hm : m.stack = .complete :: rest) (hf : (m.heap.record record)[0]? = some (name, id)) :
      Demands m (.give (.record record)) id
  | nextField {record : RecordId} {i : Nat} {rest : List Task} {d : Datum} {name : String}
      {id : ThunkId} (hm : m.stack = .recordField record i :: rest)
      (hf : (m.heap.record record)[i + 1]? = some (name, id)) : Demands m (.give d) id

/-- What a turn does about the delayed expressions: it leaves them alone, starts on one, or keeps
the value of the one that was started on last. -/
inductive Forcing (m m' : Machine) : Prop where
  | none (hs : m.heap.KeepsStates m'.heap) (hu : m'.underway = m.underway)
  | start (id : ThunkId) (hf : m.heap.state id = .unforced)
      (hs : ∀ other, m'.heap.state other = if other = id then .forcing else m.heap.state other)
      (hu : m'.underway = id :: m.underway)
  | keep (id : ThunkId) (d : Datum)
      (hs : ∀ other, m'.heap.state other = if other = id then .forced d else m.heap.state other)
      (hu : m.underway = id :: m'.underway)

/-- A delayed expression is under evaluation if and only if its value is waited for, by one task. -/
structure Tracked (m : Machine) : Prop where
  nodup : m.underway.Nodup
  forcing_iff : ∀ id, m.heap.state id = .forcing ↔ id ∈ m.underway

variable {answers : Answers} {parents : Parents} {m m' : Machine} {control next : Control}
  {id : ThunkId}

theorem Forcing.of_eq {before : Machine} (h : before.Forcing m') (hh : before.heap = m.heap)
    (hu : before.underway = m.underway) : m.Forcing m' := by
  cases h with
  | none hs hu' => exact .none (hh ▸ hs) (hu'.trans hu)
  | start id hf hs hu' => exact .start id (hh ▸ hf) (hh ▸ hs) (hu'.trans (congrArg _ hu))
  | keep id d hs hu' => exact .keep id d (hh ▸ hs) (hu.symm.trans hu')

theorem forcing_enter {task : Task} (hi : id.index < m.heap.thunks.size)
    (hf : (m.heap.thunk id).state = .unforced) (ht : task.kept? = none) :
    m.Forcing (m.enter id task) := by
  refine .start id hf (Heap.state_setState hi .forcing) ?_
  simp only [enter, underway_push, ht]
  rfl

theorem mem_stack_of_underway (h : id ∈ m.underway) : .memoize id ∈ m.stack := by
  obtain ⟨task, hm, hk⟩ := List.mem_filterMap.mp h
  cases task with
  | memoize kept =>
    cases hk
    exact hm
  | _ => cases hk

theorem forcing_of_fieldMove {record : RecordId} {i : Nat} (hm : m.Sound parents)
    (hr : record.index < m.heap.records.size) (hf : FieldMove record i m (.next next m')) :
    m.Forcing m' := by
  cases hf with
  | ready | close => exact .none (fun _ => rfl) rfl
  | start hf hs =>
    have hi := hm.heap.field hr (List.mem_of_getElem? hf)
    exact (forcing_enter (m := m.push (.recordField record i)) hi hs rfl).of_eq rfl rfl

theorem forcing_of_step (hm : m.Sound parents) (hc : control.Known parents m.heap)
    (hs : m.step answers control = .next next m') : m.Forcing m' := by
  cases move_of_step hs with
  | record ho =>
    obtain ⟨_, _, _, hopens, rfl⟩ := Heap.openRecord_opens ho
    exact .none hopens.keepsStates rfl
  | function ho =>
    cases ho
    exact .none (fun _ => rfl) rfl
  | nameStart hl hf => exact forcing_enter (hm.heap.lookup hl) hf rfl
  | block ho | blockOfNames _ ho =>
    obtain ⟨_, _, hopens⟩ := Heap.openBlock_opens ho
    exact .none hopens.keepsStates rfl
  | @accessStart m record field id hr hf =>
    have hi := (sound_push.mp hm).2.heap.field hc (Heap.mem_record_of_field? hr)
    exact (forcing_enter (m := m) hi hf rfl).of_eq rfl rfl
  | memoize =>
    obtain ⟨hi, _⟩ := sound_push.mp hm
    exact .keep _ _ (Heap.state_setState hi _) rfl
  | callee _ ho =>
    obtain ⟨_, _, hopens⟩ := Heap.openCall_opens ho
    exact .none hopens.keepsStates rfl
  | completeRecord _ hf =>
    have hopen := (sound_push.mp hm).2.openResult hc
    exact (forcing_of_fieldMove hopen hc hf).of_eq rfl rfl
  | recordField hf =>
    obtain ⟨hr, hrest⟩ := sound_push.mp hm
    exact (forcing_of_fieldMove hrest hr hf).of_eq rfl rfl
  | _ => exact .none (fun _ => rfl) rfl

namespace Tracked

theorem of_idle (hu : m.underway = []) (hs : ∀ id, m.heap.state id = .unforced) : m.Tracked :=
  ⟨hu ▸ .nil, fun id => by simp [hs id, hu]⟩

theorem of_eq (h : m.Tracked) (hs : m.heap.KeepsStates m'.heap) (hu : m'.underway = m.underway) :
    m'.Tracked := by
  refine ⟨hu ▸ h.nodup, fun id => ?_⟩
  rw [hs id, hu]
  exact h.forcing_iff id

theorem not_mem_of_unforced (h : m.Tracked) (hf : m.heap.state id = .unforced) :
    id ∉ m.underway := by
  rw [← h.forcing_iff, hf]
  nofun

theorem forcing (h : m.Tracked) (hf : m.Forcing m') : m'.Tracked := by
  cases hf with
  | none hs hu => exact h.of_eq hs hu
  | start id hf hs hu =>
    refine ⟨hu ▸ List.nodup_cons.mpr ⟨h.not_mem_of_unforced hf, h.nodup⟩, fun other => ?_⟩
    rw [hs other, hu, List.mem_cons, ← h.forcing_iff other]
    by_cases ho : other = id <;> simp [ho]
  | keep id d hs hu =>
    obtain ⟨hn, hrest⟩ := List.nodup_cons.mp (hu ▸ h.nodup)
    refine ⟨hrest, fun other => ?_⟩
    rw [hs other]
    by_cases ho : other = id
    · simp [ho, hn]
    · have hother := h.forcing_iff other
      rw [hu, List.mem_cons] at hother
      simpa [ho] using hother

theorem goes (h : m.Tracked) (hf : m.Forcing m') (id : ThunkId) :
    (m.heap.state id).Goes (m'.heap.state id) := by
  cases hf with
  | none hs _ =>
    rw [hs id]
    exact .stay _
  | start started hf hs _ =>
    rw [hs id]
    split
    · rename_i he
      rw [he, hf]
      exact .start
    · exact .stay _
  | keep kept d hs hu =>
    rw [hs id]
    split
    · rename_i he
      have hforcing : m.heap.state kept = .forcing :=
        (h.forcing_iff kept).mpr (hu ▸ List.mem_cons_self)
      rw [he, hforcing]
      exact .keep d
    · exact .stay _

end Tracked

theorem unforced_of_fieldMove {record : RecordId} {i : Nat} {e : Expr} {scope : Scope}
    (hf : FieldMove record i m (.next (.eval e scope) m'))
    (hm : m'.stack.head? = some (.memoize id)) : m.heap.state id = .unforced := by
  cases hf with
  | start _ hs =>
    cases hm
    exact hs

theorem unforced_of_step {e : Expr} {scope : Scope}
    (hs : m.step answers control = .next (.eval e scope) m')
    (hm : m'.stack.head? = some (.memoize id)) : m.heap.state id = .unforced := by
  cases move_of_step hs with
  | nameStart _ hf | accessStart _ hf =>
    cases hm
    exact hf
  | completeRecord _ hf | recordField hf =>
    have hunforced := unforced_of_fieldMove hf hm
    exact hunforced
  | _ => cases hm

theorem StartsOn.unforced (h : m.StartsOn answers control id) : m.heap.state id = .unforced := by
  obtain ⟨_, hs, hm⟩ := h
  exact unforced_of_step hs hm

theorem StartsOn.forcing (h : m.StartsOn answers control id)
    (hs : m.step answers control = .next next m') (ht : m'.Tracked) :
    m'.heap.state id = .forcing := by
  obtain ⟨found, hfound, hm⟩ := h
  obtain ⟨_, rfl⟩ := Turn.next.inj (hfound.symm.trans hs)
  obtain ⟨rest, hstack⟩ := List.head?_eq_some_iff.mp hm
  apply (ht.forcing_iff id).mpr
  simp [underway, hstack, Task.kept?]

def Reenters (m : Machine) (control : Control) : Prop :=
  ∃ record, control = .give (.record record) ∧ m.stack.head? = some .complete ∧ record ∈ m.opened

/-- A turn reports a cycle where it asks for what is under evaluation, or meets a record of the
result inside itself. -/
theorem demands_of_cyclic {name : String}
    (hs : m.step answers control = .stop (.failed (.cyclicEvaluation name)) m') :
    (∃ id, m.Demands control id ∧ m.heap.state id = .forcing ∧ (m.heap.thunk id).label = name) ∨
      m.Reenters control := by
  cases move_of_step hs with
  | nameCyclic hl hf => exact .inl ⟨_, .name hl, hf, rfl⟩
  | accessCyclic hr hf => exact .inl ⟨_, .access rfl hr, hf, rfl⟩
  | recordCyclic ho => exact .inr ⟨_, rfl, rfl, ho⟩
  | completeRecord _ hf =>
    cases hf with
    | cyclic hr hf => exact .inl ⟨_, .firstField rfl hr, hf, rfl⟩
  | recordField hf =>
    cases hf with
    | cyclic hr hf => exact .inl ⟨_, .nextField rfl hr, hf, rfl⟩
  | binaryFailed hr => cases BinOp.ofOperands_of_apply hr
  | unaryFailed hr => cases UnaryOp.ofOperands_of_apply hr
  | logicalRightFailed hb | logicalFailed hb | branchFailed hb =>
    cases Datum.ofOperands_of_toBool hb

theorem tracked_enterBlock {captureTrace : Bool} {body : List Stmt}
    (h : (initial captureTrace).enterBlock Heap.globalFrame [] body = (control, m)) :
    m.Tracked := by
  have hstates : Heap.initial.KeepsStates (Heap.initial.bindAll Heap.globalFrame [] body) :=
    (Heap.declares_bindAll _ _ _ _).keepsStates
  have hempty (id : ThunkId) : Heap.initial.state id = .unforced :=
    Heap.state_of_le (Nat.zero_le _)
  obtain ⟨_, _, rfl, rfl⟩ | ⟨rfl, rfl⟩ := enterBlock_initial h
  · exact .of_idle rfl fun id => (hstates id).trans (hempty id)
  · exact .of_idle rfl fun id => (hstates id).trans (hempty id)

end Machine

namespace Pass

variable {captureTrace : Bool} {program : Program} {standing : Standing} {m : Machine}
  {before after : Moment} {id : ThunkId}

theorem Reaches.forcing {answers : Answers} {control next : Control} {m' : Machine}
    (h : Reaches captureTrace program (.running control) m)
    (hs : m.step answers control = .next next m') : m.Forcing m' := by
  obtain ⟨_, hm, hc⟩ := h.sound
  exact Machine.forcing_of_step hm hc hs

theorem Reaches.tracked (h : Reaches captureTrace program standing m) : m.Tracked := by
  induction h with
  | start _ hm => exact Machine.tracked_enterBlock hm
  | next h hs ih => exact ih.forcing (h.forcing hs)
  | stop _ hs ho ih =>
    obtain ⟨rfl, _⟩ := Machine.eq_of_stop hs ho
    exact ih
  | answer _ _ ih => exact ih.of_eq (fun _ => rfl) rfl

theorem Reaches.goes (h : Reaches captureTrace program before.1 before.2)
    (ha : Advances before after) (id : ThunkId) :
    (before.2.heap.state id).Goes (after.2.heap.state id) := by
  cases ha with
  | turn hs => exact h.tracked.goes (h.forcing hs) id
  | stop hs ho =>
    obtain ⟨rfl, _⟩ := Machine.eq_of_stop hs ho
    exact .stay _
  | answer answer => exact .stay _

theorem goes_of_later (hl : Later before after)
    (h : Reaches captureTrace program before.1 before.2) (id : ThunkId) :
    Relation.ReflTransGen ThunkState.Goes (before.2.heap.state id) (after.2.heap.state id) := by
  induction hl with
  | refl => exact .refl
  | tail hl ha ih => exact ih.tail ((h.later hl).goes ha id)

end Pass

namespace ThunkState

open Relation (ReflTransGen)

theorem eq_of_goes_forced {d : Datum} {state : ThunkState}
    (h : ReflTransGen Goes (.forced d) state) : state = .forced d := by
  induction h with
  | refl => rfl
  | tail _ hg ih =>
    subst ih
    cases hg
    rfl

theorem ne_unforced_of_goes {before after : ThunkState} (h : ReflTransGen Goes before after)
    (hb : before ≠ .unforced) : after ≠ .unforced := by
  induction h with
  | refl => exact hb
  | tail _ hg ih =>
    cases hg with
    | stay => exact ih
    | start => exact absurd rfl ih
    | keep d => nofun

end ThunkState

namespace Pass

variable {captureTrace : Bool} {program : Program} {standing : Standing} {m : Machine}

/-- Delayed expressions are evaluated at most once in a pass, whatever is answered on the way. At
every moment one is under evaluation if and only if a task waits to keep its value, and then just
one task does. Later it is where it was or further on, with the value that was kept; what a turn
starts on, no later turn starts on. A turn that asks for a value fails with a cycle only where that
value is waited for. -/
theorem Reaches.evaluated_once (h : Reaches captureTrace program standing m) :
    (∀ id, m.underway.count id = if (m.heap.thunk id).state = .forcing then 1 else 0) ∧
    (∀ after, Later (standing, m) after → ∀ id,
      Relation.ReflTransGen ThunkState.Goes (m.heap.thunk id).state (after.2.heap.thunk id).state ∧
      ∀ d, (m.heap.thunk id).state = .forced d → (after.2.heap.thunk id).state = .forced d) ∧
    (∀ answers control next m' id, standing = .running control →
      m.step answers control = .next next m' → m.StartsOn answers control id →
        ∀ more later machine, Later (.running next, m') (.running later, machine) →
          ¬machine.StartsOn more later id) ∧
    ∀ answers control name m', standing = .running control →
      m.step answers control = .stop (.failed (.cyclicEvaluation name)) m' →
        (∃ id, m.Demands control id ∧ (m.heap.thunk id).label = name ∧ .memoize id ∈ m.stack) ∨
          m.Reenters control := by
  have ht := h.tracked
  refine ⟨fun id => ?_, fun after hl id => ?_, ?_, ?_⟩
  · rw [ht.nodup.count]
    simp only [← ht.forcing_iff id, Heap.state]
  · have hgoes := goes_of_later hl h id
    refine ⟨hgoes, fun d hd => ?_⟩
    have hforced : m.heap.state id = .forced d := hd
    exact ThunkState.eq_of_goes_forced (hforced ▸ hgoes)
  · rintro answers control next m' id rfl hs hstart more later machine hl hagain
    have hnext := h.next hs
    have hforcing := hstart.forcing hs hnext.tracked
    have hgoes := goes_of_later hl hnext id
    exact ThunkState.ne_unforced_of_goes hgoes (by simp [hforcing]) hagain.unforced
  · rintro answers control name m' rfl hs
    refine (Machine.demands_of_cyclic hs).imp_left fun ⟨id, hd, hf, hname⟩ => ⟨id, hd, hname, ?_⟩
    exact Machine.mem_stack_of_underway ((ht.forcing_iff id).mp hf)

theorem evaluated_once_invoice :
    let config : Config := ⟨50, true, false⟩
    let m := (start config invoice .empty).machine
    let ordered : Question := ⟨"ordered", .number, ""⟩
    Reaches true invoice (.parked ordered) m ∧ (m.heap.thunk ⟨0⟩).state = .forcing ∧
      m.underway.count ⟨0⟩ = 1 ∧
      ∀ after, Later (.parked ordered, m) after →
        Relation.ReflTransGen ThunkState.Goes .forcing (after.2.heap.thunk ⟨0⟩).state := by
  intro config m ordered
  have hparked : (start config invoice .empty).outcome = .parked ordered := by decide
  have hreaches : Reaches true invoice (.parked ordered) m :=
    (reached_start config invoice .empty).parked hparked
  have hforcing : (m.heap.thunk ⟨0⟩).state = .forcing := by decide
  obtain ⟨hcount, hlater, _, _⟩ := hreaches.evaluated_once
  refine ⟨hreaches, hforcing, ?_, fun after hl => ?_⟩
  · rw [hcount ⟨0⟩, if_pos hforcing]
  · exact hforcing ▸ (hlater after hl ⟨0⟩).1

end Pass

end Inquiry
