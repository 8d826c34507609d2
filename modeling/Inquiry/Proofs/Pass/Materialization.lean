import Inquiry.Proofs.Heap.Settling
import Inquiry.Proofs.Pass.Forcing
set_option autoImplicit false

/-!
A record that a pass ends with is there as a whole. Under the evaluation of a field wait the open
records, each with the fields before the one at hand settled; so a record is settled when it is
closed, and the last one that is closed is the result.
-/

namespace Inquiry

def Task.completes : Task → Bool
  | .complete | .recordField _ _ => true
  | _ => false

namespace Heap

/-- If a field of an open record is being completed, this is its value. -/
def Delivers (h : Heap) (stack : List Task) (d : Datum) : Prop :=
  ∀ record i rest, stack = .recordField record i :: rest →
    ∃ field, (h.record record)[i]? = some field ∧ h.forced? field.2 = some d

/-- The tasks are those of the open records, the innermost first, and each record is the value of a
field of the next. -/
inductive Waits (h : Heap) : List Task → List RecordId → Prop where
  | nil : Waits h [] []
  | field {record : RecordId} {i : Nat} {rest : List Task} {opened : List RecordId}
      (hi : record.index < h.records.size) (hn : record ∉ opened)
      (hs : ∀ j, j < i → ∀ field, (h.record record)[j]? = some field →
        ∃ d, h.forced? field.2 = some d ∧ h.Settled (record :: opened) d)
      (hd : h.Delivers rest (.record record)) (hw : Waits h rest opened) :
      Waits h (.recordField record i :: rest) (record :: opened)

/-- The tasks on top evaluate the result, or a field that is to be completed. -/
inductive Seeks (h : Heap) : List Task → List RecordId → Prop where
  | result : Seeks h [.complete] []
  | field {record : RecordId} {i : Nat} {name : String} {id : ThunkId} {rest : List Task}
      {opened : List RecordId} (hw : h.Waits (.recordField record i :: rest) opened)
      (hf : (h.record record)[i]? = some (name, id)) :
      Seeks h (.memoize id :: .complete :: .recordField record i :: rest) opened
  | task {task : Task} {stack : List Task} {opened : List RecordId}
      (ht : task.completes = false) (hs : Seeks h stack opened) : Seeks h (task :: stack) opened

variable {h later : Heap} {stack rest : List Task} {opened : List RecordId} {d : Datum}
  {record : RecordId} {i : Nat}

theorem forced?_of_state {id : ThunkId} (hs : (h.thunk id).state = .forced d) :
    h.forced? id = some d := by simp [forced?, hs]

theorem forced?_setState {id : ThunkId} (hi : id.index < h.thunks.size) (d : Datum) :
    (h.setState id (.forced d)).forced? id = some d := by
  apply forced?_of_state
  rw [thunk_setState, if_pos ⟨rfl, hi⟩]

theorem Retains.getElem? (hr : h.Retains later) {field : String × ThunkId}
    (hf : (h.record record)[i]? = some field) : (later.record record)[i]? = some field := by
  rwa [hr.records.eq_of_lt (List.getElem?_eq_some_iff.mp hf).1]

theorem Delivers.retain (hd : h.Delivers stack d) (hr : h.Retains later) :
    later.Delivers stack d := by
  intro record i rest hstack
  obtain ⟨field, hf, hd⟩ := hd record i rest hstack
  exact ⟨field, hr.getElem? hf, hr.forced _ _ hd⟩

theorem Waits.retain (hw : h.Waits stack opened) (hr : h.Retains later) :
    later.Waits stack opened := by
  induction hw with
  | nil => exact .nil
  | field hi hn hs hd _ ih =>
    refine .field (hr.records.lt hi) hn (fun j hj field hf => ?_) (hd.retain hr) ih
    rw [hr.records.record_eq hi] at hf
    obtain ⟨d, hd, hsettled⟩ := hs j hj field hf
    exact ⟨d, hr.forced _ _ hd, hsettled.retain hr⟩

theorem Seeks.retain (hs : h.Seeks stack opened) (hr : h.Retains later) :
    later.Seeks stack opened := by
  induction hs with
  | result => exact .result
  | field hw hf => exact .field (hw.retain hr) (hr.getElem? hf)
  | task ht _ ih => exact .task ht ih

theorem Waits.advance (hw : h.Waits (.recordField record i :: rest) opened)
    (hs : h.Settled opened d) (hd : h.Delivers (.recordField record i :: rest) d) :
    h.Waits (.recordField record (i + 1) :: rest) opened := by
  cases hw with
  | field hi hn hbefore hdeliver hw =>
    refine .field hi hn (fun j hj field hf => ?_) hdeliver hw
    rcases Nat.lt_succ_iff_lt_or_eq.mp hj with hj | rfl
    · exact hbefore j hj field hf
    · obtain ⟨found, hfound, hforced⟩ := hd record j rest rfl
      cases hfound.symm.trans hf
      exact ⟨d, hforced, hs⟩

theorem Waits.close (hw : h.Waits (.recordField record i :: rest) opened)
    (hf : (h.record record)[i]? = none) :
    h.Settled (opened.drop 1) (.record record) ∧ h.Waits rest (opened.drop 1) ∧
      h.Delivers rest (.record record) := by
  cases hw with
  | @field _ _ _ outer hi hn hs hd hw =>
    have hall : ∀ field ∈ h.record record,
        ∃ d, h.forced? field.2 = some d ∧ h.Settled (record :: outer) d := by
      intro field hm
      obtain ⟨j, hj⟩ := List.mem_iff_getElem?.mp hm
      have hlt : j < i := by
        have hlen := (List.getElem?_eq_some_iff.mp hj).1
        exact Nat.lt_of_lt_of_le hlen (List.getElem?_eq_none_iff.mp hf)
      exact hs j hlt field hj
    refine ⟨.record hi hn (fun field hm => ?_) fun field hm d hd => ?_, hw, hd⟩
    · obtain ⟨d, hd, _⟩ := hall field hm
      exact ⟨d, hd⟩
    · obtain ⟨found, hfound, hsettled⟩ := hall field hm
      cases hfound.symm.trans hd
      exact hsettled

end Heap

namespace Machine

/-- How far the result is completed. -/
inductive Completing (m : Machine) : Control → Prop where
  | seek {control : Control} (hs : m.heap.Seeks m.stack m.opened) : Completing m control
  | found {d : Datum} {rest : List Task} (hm : m.stack = .complete :: rest)
      (hw : m.heap.Waits rest m.opened) (hd : m.heap.Delivers rest d) : Completing m (.give d)
  | settled {d : Datum} (hs : m.heap.Settled m.opened d) (hw : m.heap.Waits m.stack m.opened)
      (hd : m.heap.Delivers m.stack d) : Completing m (.give d)

variable {answers : Answers} {parents : Parents} {m m' : Machine} {control next : Control}
  {task : Task} {d : Datum} {record : RecordId} {i : Nat}

namespace Completing

theorem seeks {e : Expr} {scope : Scope} (h : m.Completing (.eval e scope)) :
    m.heap.Seeks m.stack m.opened := by
  cases h with
  | seek hs => exact hs

/-- A task that neither completes nor keeps a value has others below it that seek one. -/
theorem of_push (h : (m.push task).Completing control) (ht : task.completes = false)
    (hk : task.kept? = none) : m.heap.Seeks m.stack m.opened := by
  obtain ⟨heap, stack, tape, opened⟩ := m
  cases h with
  | seek hs =>
    cases hs with
    | result => cases ht
    | field => cases hk
    | task _ hs => exact hs
  | found hm =>
    cases hm
    cases ht
  | settled _ hw =>
    cases hw with
    | field => cases ht

theorem of_memoize {id : ThunkId} (h : (m.push (.memoize id)).Completing (.give d))
    (hi : id.index < m.heap.thunks.size)
    (hr : m.heap.Retains (m.heap.setState id (.forced d))) :
    (m.withHeap (m.heap.setState id (.forced d))).Completing (.give d) := by
  obtain ⟨heap, stack, tape, opened⟩ := m
  cases h with
  | seek hs =>
    cases hs with
    | task _ hs => exact .seek (hs.retain hr)
    | field hw hf =>
      refine .found rfl (hw.retain hr) fun _ _ _ he => ?_
      cases he
      exact ⟨_, hr.getElem? hf, Heap.forced?_setState hi d⟩
  | found hm => cases hm
  | settled _ hw => cases hw

theorem of_complete (h : (m.push .complete).Completing (.give d)) :
    m.heap.Waits m.stack m.opened ∧ m.heap.Delivers m.stack d := by
  obtain ⟨heap, stack, tape, opened⟩ := m
  cases h with
  | seek hs =>
    cases hs with
    | result => exact ⟨.nil, nofun⟩
    | task ht => cases ht
  | found hm hw hd =>
    cases hm
    exact ⟨hw, hd⟩
  | settled _ hw => cases hw

theorem of_recordField (h : (m.push (.recordField record i)).Completing (.give d)) :
    m.heap.Waits (.recordField record (i + 1) :: m.stack) m.opened := by
  obtain ⟨heap, stack, tape, opened⟩ := m
  cases h with
  | seek hs =>
    cases hs with
    | task ht => cases ht
  | found hm => cases hm
  | settled hs hw hd => exact hw.advance hs hd

theorem of_fieldMove (hw : m.heap.Waits (.recordField record i :: m.stack) m.opened)
    (hr : m.heap.Retains m'.heap) (hf : FieldMove record i m (.next next m')) :
    m'.Completing next := by
  cases hf with
  | ready hf hs =>
    refine .found rfl hw fun _ _ _ he => ?_
    cases he
    exact ⟨_, hf, Heap.forced?_of_state hs⟩
  | start hf hs => exact .seek (.field (hw.retain hr) (hr.getElem? hf))
  | close hf =>
    obtain ⟨hs, hw, hd⟩ := hw.close hf
    exact .settled hs hw hd

theorem step (h : m.Completing control) (hm : m.Sound parents)
    (hc : control.Known parents m.heap) (hr : m.heap.Retains m'.heap)
    (hs : m.step answers control = .next next m') : m'.Completing next := by
  cases move_of_step hs with
  | number | boolean | answered | record | function | nameBound | nameReady | blockOfNames =>
    exact .seek (h.seeks.retain hr)
  | binary | unary | logical | conditional | access | call | block =>
    exact .seek (.task rfl (h.seeks.retain hr))
  | nameStart => exact .seek (.task rfl (.task rfl (h.seeks.retain hr)))
  | binaryRight | logicalRight | branch | callee =>
    exact .seek (.task rfl ((h.of_push rfl rfl).retain hr))
  | accessStart => exact .seek (.task rfl (.task rfl ((h.of_push rfl rfl).retain hr)))
  | memoize =>
    obtain ⟨hi, _⟩ := sound_push.mp hm
    exact h.of_memoize hi hr
  | completePlain hd =>
    obtain ⟨hw, hdeliver⟩ := h.of_complete
    exact .settled (.plain hd) hw hdeliver
  | @completeRecord m record _ ho hf =>
    obtain ⟨hw, hd⟩ := h.of_complete
    have hfields : m.heap.Waits (.recordField record 0 :: m.stack) (record :: m.opened) :=
      .field hc ho (fun _ hj => absurd hj (Nat.not_lt_zero _)) hd hw
    exact of_fieldMove (m := m.openResult record) hfields hr hf
  | recordField hf => exact .of_fieldMove h.of_recordField hr hf
  | _ => exact .seek ((h.of_push rfl rfl).retain hr)

theorem enterBlock {captureTrace : Bool} {body : List Stmt}
    (h : (initial captureTrace).enterBlock Heap.globalFrame [] body = (control, m)) :
    m.Completing control := by
  obtain ⟨_, _, rfl, rfl⟩ | ⟨rfl, rfl⟩ := enterBlock_initial h
  · exact .seek (.task rfl .result)
  · exact .seek .result

theorem finished (h : m.Completing (.give d)) (hm : m.stack = []) : m.heap.Settled [] d := by
  cases h with
  | seek hs =>
    rw [hm] at hs
    cases hs
  | found hstack =>
    cases hm.symm.trans hstack
  | settled hs hw =>
    rw [hm] at hw
    generalize m.opened = opened at hs hw
    cases hw
    exact hs

end Completing

end Machine

def Standing.Completing (m : Machine) : Standing → Prop
  | .running control => m.Completing control
  | .parked _ => m.heap.Seeks m.stack m.opened
  | .finished d => m.heap.Settled [] d

namespace Pass

variable {captureTrace : Bool} {program : Program} {standing : Standing} {m : Machine}

theorem Reaches.retains {answers : Answers} {control next : Control} {m' : Machine}
    (h : Reaches captureTrace program (.running control) m)
    (hs : m.step answers control = .next next m') : m.heap.Retains m'.heap where
  forced id d hd := by
    have hgoes := h.tracked.goes (h.forcing hs) id
    rw [show m.heap.state id = .forced d from Heap.state_of_forced? hd] at hgoes
    generalize hstate : m'.heap.state id = state at hgoes
    cases hgoes
    exact Heap.forced?_of_state hstate
  records := Machine.keepsRecords_of_step hs

theorem Reaches.completing (h : Reaches captureTrace program standing m) :
    standing.Completing m := by
  induction h with
  | start _ hm => exact Machine.Completing.enterBlock hm
  | next h hs ih =>
    obtain ⟨_, hm, hc⟩ := h.sound
    exact Machine.Completing.step ih hm hc (h.retains hs) hs
  | stop _ hs ho ih =>
    obtain ⟨rfl, hcases⟩ := Machine.eq_of_stop hs ho
    rcases hcases with ⟨question, scope, rfl, rfl⟩ | ⟨d, rfl, rfl, hm⟩
    · exact Machine.Completing.seeks ih
    · exact Machine.Completing.finished ih hm
  | answer _ _ ih => exact .seek ih

variable {config : Config} {pass : Pass} {root : RecordId}

/-- A pass that ends with a record has completed it, whatever was answered before and on the way:
all fields of all records that it leads to have values, no such record leads back to itself, and
the value that the host is shown has all their fields at every level. So a result that leads back to
itself is none. -/
theorem Arises.materialized (h : Arises config program pass)
    (ho : pass.outcome = .finished (.record root)) :
    let heap := pass.machine.heap
    (∀ id, Relation.ReflTransGen heap.Leads root id →
      (∀ field ∈ heap.record id, ∃ d, heap.forced? field.2 = some d) ∧
        ¬Relation.TransGen heap.Leads id id) ∧
    heap.Unfolds (.record root) (heap.reveal (.record root)) := by
  intro heap
  have hreaches : Reaches config.captureTrace program (.finished (.record root)) pass.machine :=
    h.reached.reaches _ (by rw [ho]; rfl)
  have hsettled : heap.Settled [] (.record root) := hreaches.completing
  refine ⟨fun id hl => ?_, hsettled.unfolds .nil nofun (Nat.le_refl _)⟩
  obtain ⟨_, _, hid⟩ := hsettled.reach hl
  exact ⟨hid.fields, hid.acyclic⟩

theorem materialized_invoice :
    let config : Config := ⟨50, true, false⟩
    let ordered := Answers.empty.insert "ordered" (.number 2)
    let priced := ordered.insert "price" (.number 5)
    let parked := (start config invoice .empty).resume config (.number 2) ordered
    let pass := parked.resume config (.number 5) priced
    Arises config invoice pass ∧ pass.outcome = .finished (.record ⟨0⟩) ∧
      (∀ field ∈ pass.machine.heap.record ⟨0⟩,
        ∃ d, pass.machine.heap.forced? field.2 = some d) ∧
      pass.machine.heap.Unfolds (.record ⟨0⟩) (.record (.cons "total" (.number 15) .nil)) := by
  intro config ordered priced parked pass
  have harises : Arises config invoice pass := .resume _ _ (.resume _ _ (.start _))
  have hdone : pass.outcome = .finished (.record ⟨0⟩) := by decide
  have hshown : pass.machine.heap.reveal (.record ⟨0⟩) =
      .record (.cons "total" (.number 15) .nil) := by decide
  obtain ⟨hall, hunfolds⟩ := harises.materialized hdone
  exact ⟨harises, hdone, (hall ⟨0⟩ .refl).1, hshown ▸ hunfolds⟩

end Pass

end Inquiry
