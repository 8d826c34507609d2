import Inquiry.Proofs.Pass.Materialization
set_option autoImplicit false

namespace Inquiry

def Task.opened? : Task → Option RecordId
  | .recordField record _ => some record
  | _ => none

theorem Task.opened?_of_completes {task : Task} (ht : task.completes = false) :
    task.opened? = none := by
  cases task with
  | recordField => cases ht
  | _ => rfl

namespace Heap

/-- The name of the first field of the one record that has the other as its value. -/
def fieldTo? (h : Heap) (parent child : RecordId) : Option String :=
  ((h.record parent).find? fun field => h.forced? field.2 == some (.record child)).map Prod.fst

variable {h : Heap} {stack : List Task} {opened : List RecordId} {record : RecordId}

theorem fieldTo?_eq_some {parent child : RecordId} {i : Nat} {name : String} {id : ThunkId}
    (hf : (h.record parent)[i]? = some (name, id)) (hd : h.forced? id = some (.record child))
    (hfirst : ∀ j, j < i → ∀ field, (h.record parent)[j]? = some field →
      h.forced? field.2 ≠ some (.record child)) : h.fieldTo? parent child = some name := by
  obtain ⟨hi, he⟩ := List.getElem?_eq_some_iff.mp hf
  have hfind : (h.record parent).find? (fun field => h.forced? field.2 == some (.record child)) =
      some (name, id) := by
    refine List.find?_eq_some_iff_getElem.mpr ⟨by simp [hd], i, hi, he, fun j hj => ?_⟩
    have hne := hfirst j hj _ (List.getElem?_eq_getElem (Nat.lt_trans hj hi))
    simpa using hne
  rw [fieldTo?, hfind]
  rfl

namespace Waits

theorem opened_eq (hw : h.Waits stack opened) : opened = stack.filterMap Task.opened? := by
  induction hw with
  | nil => rfl
  | field _ _ _ _ _ ih => exact congrArg _ ih

theorem nodup (hw : h.Waits stack opened) : opened.Nodup := by
  induction hw with
  | nil => exact .nil
  | field _ hn _ _ _ ih => exact List.nodup_cons.mpr ⟨hn, ih⟩

theorem recordField_of_mem (hw : h.Waits stack opened) {task : Task} (hm : task ∈ stack) :
    ∃ record i, task = .recordField record i := by
  induction hw with
  | nil => cases hm
  | field _ _ _ _ _ ih =>
    rcases List.mem_cons.mp hm with rfl | hm
    · exact ⟨_, _, rfl⟩
    · exact ih hm

theorem idle (hw : h.Waits stack opened) : stack.filterMap Task.kept? = [] := by
  refine List.filterMap_eq_nil_iff.mpr fun task hm => ?_
  obtain ⟨_, _, rfl⟩ := hw.recordField_of_mem hm
  rfl

theorem leads_back (hw : h.Waits stack opened) (hd : h.Delivers stack (.record record))
    (hm : record ∈ opened) :
    ∃ parent i rest name id, stack = .recordField parent i :: rest ∧ opened.head? = some parent ∧
      (h.record parent)[i]? = some (name, id) ∧ h.fieldTo? parent record = some name := by
  cases hw with
  | nil => cases hm
  | @field parent i rest outer _ _ hs _ _ =>
    obtain ⟨⟨name, id⟩, hf, hforced⟩ := hd parent i rest rfl
    refine ⟨parent, i, rest, name, id, rfl, rfl, hf, fieldTo?_eq_some hf hforced ?_⟩
    -- The fields before it are settled, so none of them leads to an open record.
    intro j hj field hfield hback
    obtain ⟨d, hvalue, hsettled⟩ := hs j hj field hfield
    cases hvalue.symm.trans hback
    exact hsettled.not_mem hm

end Waits

theorem Seeks.opened_eq (hs : h.Seeks stack opened) : opened = stack.filterMap Task.opened? := by
  induction hs with
  | result => rfl
  | field hw _ => exact hw.opened_eq
  | task ht _ ih => rw [List.filterMap_cons_none (Task.opened?_of_completes ht), ih]

theorem Seeks.nodup (hs : h.Seeks stack opened) : opened.Nodup := by
  induction hs with
  | result => exact .nil
  | field hw _ => exact hw.nodup
  | task _ _ ih => exact ih

end Heap

namespace Machine

/-- The open records are those whose fields the tasks go through, in the same order, and no record
is open twice. -/
structure Mirrors (m : Machine) : Prop where
  opened_eq : m.opened = m.stack.filterMap Task.opened?
  nodup : m.opened.Nodup

/-- The turn goes to a field of a record of the result, or past its last one. -/
inductive GoesTo (m : Machine) : Control → RecordId → Nat → Prop where
  | first {record : RecordId} {rest : List Task} (hm : m.stack = .complete :: rest) :
      GoesTo m (.give (.record record)) record 0
  | next {record : RecordId} {i : Nat} {rest : List Task} {d : Datum}
      (hm : m.stack = .recordField record i :: rest) : GoesTo m (.give d) record (i + 1)

variable {answers : Answers} {m m' : Machine} {control : Control} {task : Task} {d : Datum}
  {rest : List Task} {record : RecordId} {i : Nat} {name : String} {outcome : Outcome}

theorem Mirrors.of_push (h : (m.push task).Mirrors) (ht : task.opened? = none) : m.Mirrors :=
  ⟨h.opened_eq.trans (List.filterMap_cons_none ht), h.nodup⟩

theorem Mirrors.of_stop (h : m.Mirrors) (hs : m.step answers control = .stop outcome m') :
    m'.Mirrors := by
  cases move_of_step hs with
  | asked | unbound | nameCyclic | finished => exact h
  | blockEmpty => exact ⟨h.opened_eq, h.nodup⟩
  | completeRecord ho hf =>
    have hrest := h.of_push rfl
    cases hf with
    | cyclic => exact ⟨congrArg _ hrest.opened_eq, List.nodup_cons.mpr ⟨ho, hrest.nodup⟩⟩
  | recordField hf =>
    cases hf with
    | cyclic => exact ⟨h.opened_eq, h.nodup⟩
  | _ => exact h.of_push rfl

theorem cyclic_of_goesTo (hg : m.GoesTo control record i)
    (hs : m.step answers control = .stop (.failed (.cyclicEvaluation name)) m') :
    (∃ name id, (m.heap.record record)[i]? = some (name, id) ∧ m.heap.state id = .forcing) ∨
      (control = .give (.record record) ∧ m = m'.push .complete ∧ record ∈ m'.opened ∧
        name = m'.leadingField) := by
  cases move_of_step hs with
  | recordCyclic ho =>
    cases hg with
    | first => exact .inr ⟨rfl, rfl, ho, rfl⟩
    | next hm => cases hm
  | completeRecord _ hf =>
    cases hg with
    | first =>
      cases hf with
      | cyclic hf hstate => exact .inl ⟨_, _, hf, hstate⟩
    | next hm => cases hm
  | recordField hf =>
    cases hg with
    | first hm => cases hm
    | next hm =>
      cases hm
      cases hf with
      | cyclic hf hstate => exact .inl ⟨_, _, hf, hstate⟩
  | nameCyclic => cases hg
  | binaryFailed | unaryFailed | logicalRightFailed | logicalFailed | branchFailed | accessCyclic =>
    cases hg with
    | first hm | next hm => cases hm

namespace Completing

theorem mirrors (h : m.Completing control) : m.Mirrors := by
  cases h with
  | seek hs => exact ⟨hs.opened_eq, hs.nodup⟩
  | found hm hw =>
    refine ⟨?_, hw.nodup⟩
    rw [hm]
    exact hw.opened_eq
  | settled _ hw => exact ⟨hw.opened_eq, hw.nodup⟩

theorem waits_of_complete (h : m.Completing (.give d)) (hm : m.stack = .complete :: rest) :
    m.heap.Waits rest m.opened ∧ m.heap.Delivers rest d := by
  obtain ⟨heap, stack, tape, opened⟩ := m
  cases hm
  exact of_complete (m := ⟨heap, rest, tape, opened⟩) h

theorem leadingField_of_opened (h : (m.push .complete).Completing (.give (.record record)))
    (ho : record ∈ m.opened) :
    ∃ parent j rest id, m.stack = .recordField parent j :: rest ∧ m.opened.head? = some parent ∧
      (m.heap.record parent)[j]? = some (m.leadingField, id) ∧
      m.heap.fieldTo? parent record = some m.leadingField := by
  obtain ⟨hw, hd⟩ := h.of_complete
  obtain ⟨parent, j, rest, name, id, hstack, hhead, hf, hto⟩ := hw.leads_back hd ho
  have hname : m.leadingField = name := by
    rw [leadingField, hstack]
    simp only [hf, Option.map_some, Option.getD_some]
  rw [hname]
  exact ⟨parent, j, rest, id, hstack, hhead, hf, hto⟩

theorem idle_of_goesTo (h : m.Completing control) (hg : m.GoesTo control record i) :
    m.underway = [] := by
  obtain ⟨heap, stack, tape, opened⟩ := m
  cases hg with
  | first hm =>
    obtain ⟨hw, _⟩ := h.waits_of_complete hm
    cases hm
    exact hw.idle
  | @next _ i rest _ hm =>
    cases hm
    have hw := of_recordField (m := ⟨heap, rest, tape, opened⟩) h
    exact hw.idle

end Completing

end Machine

namespace Pass

variable {captureTrace : Bool} {program : Program} {standing : Standing} {control : Control}
  {m : Machine} {record : RecordId} {i : Nat}

theorem Reaches.mirrors (h : Reaches captureTrace program standing m) : m.Mirrors := by
  have hstands := h.completing
  cases h with
  | start | next | answer => exact Machine.Completing.mirrors hstands
  | stop h hs _ => exact (Machine.Completing.mirrors h.completing).of_stop hs

theorem Reaches.not_forcing (h : Reaches captureTrace program (.running control) m)
    (hg : m.GoesTo control record i) (id : ThunkId) : m.heap.state id ≠ .forcing := by
  have hidle : m.underway = [] := Machine.Completing.idle_of_goesTo h.completing hg
  intro hf
  have hm := (h.tracked.forcing_iff id).mp hf
  rw [hidle] at hm
  cases hm

/-- Wherever a pass stands, and after any turn that it stops with, the open records are those whose
fields the tasks on the stack go through, in this order and none twice. Where a value of the result
is to be completed, all other tasks go through such fields. So on the way to a field of the result
this field is not found under evaluation, and a cycle is reported there only for a record that is
open already. It has the name of the first field of the innermost open record that has this record
as its value. -/
theorem Reaches.nested (h : Reaches captureTrace program standing m) :
    m.Mirrors ∧
    (∀ answers control outcome m', standing = .running control →
      m.step answers control = .stop outcome m' → m'.Mirrors) ∧
    (∀ d rest, standing = .running (.give d) → m.stack = .complete :: rest →
      ∀ task ∈ rest, ∃ record i, task = .recordField record i) ∧
    (∀ control record i name id, standing = .running control → m.GoesTo control record i →
      (m.heap.record record)[i]? = some (name, id) → (m.heap.thunk id).state ≠ .forcing) ∧
    ∀ answers control record i name m', standing = .running control → m.GoesTo control record i →
      m.step answers control = .stop (.failed (.cyclicEvaluation name)) m' →
        ∃ parent j rest id, control = .give (.record record) ∧
          m.stack = .complete :: .recordField parent j :: rest ∧ record ∈ m.opened ∧
          m.opened.head? = some parent ∧ (m.heap.record parent)[j]? = some (name, id) ∧
          m.heap.fieldTo? parent record = some name := by
  refine ⟨h.mirrors, ?_, ?_, ?_, ?_⟩
  · exact fun _ _ _ _ _ hs => h.mirrors.of_stop hs
  · rintro d rest rfl hm
    obtain ⟨hw, _⟩ := Machine.Completing.waits_of_complete h.completing hm
    exact fun _ => hw.recordField_of_mem
  · rintro control record i name id rfl hg _
    exact h.not_forcing hg id
  · rintro answers control record i name m' rfl hg hs
    rcases Machine.cyclic_of_goesTo hg hs with ⟨_, id, _, hf⟩ | ⟨rfl, rfl, ho, rfl⟩
    · exact absurd hf (h.not_forcing hg id)
    · obtain ⟨parent, j, rest, id, hstack, hrest⟩ :=
        Machine.Completing.leadingField_of_opened h.completing ho
      exact ⟨parent, j, rest, id, rfl, congrArg _ hstack, ho, hrest⟩

def knot : Program := ⟨[.expr (.record [.mk "outer" ⟨0, "outer"⟩
  (.record [.mk "back" ⟨1, "back"⟩ (.name ⟨0, "outer"⟩)])])]⟩

theorem nested_knot : ∃ m m',
    Reaches true knot (.running (.give (.record ⟨1⟩))) m ∧ m.opened = [⟨1⟩, ⟨0⟩] ∧
    m.stack.filterMap Task.opened? = [⟨1⟩, ⟨0⟩] ∧ m.GoesTo (.give (.record ⟨1⟩)) ⟨1⟩ 0 ∧
    m.step .empty (.give (.record ⟨1⟩)) = .stop (.failed (.cyclicEvaluation "back")) m' ∧
    m.heap.fieldTo? ⟨1⟩ ⟨1⟩ = some "back" := by
  have go {control next : Control} {m m' : Machine} (h : Reaches true knot (.running control) m)
      (hs : m.step .empty control = .next next m') : Reaches true knot (.running next) m' :=
    h.next hs
  have hstart := @Reaches.start true knot _ _ (by decide) rfl
  have houter := go (go (go hstart rfl) rfl) rfl
  have hinner := go (go (go houter rfl) rfl) rfl
  have hback := go (go hinner rfl) rfl
  obtain ⟨hmirrors, _, _, _, hcyclic⟩ := hback.nested
  obtain ⟨parent, _, _, _, _, _, _, hhead, _, hto⟩ :=
    hcyclic .empty _ ⟨1⟩ 0 "back" _ rfl (.first rfl) rfl
  cases hhead
  exact ⟨_, _, hback, rfl, hmirrors.opened_eq.symm, .first rfl, rfl, hto⟩

end Pass

end Inquiry
