import Inquiry.Proofs.Heap.Declaring
set_option autoImplicit false

namespace Inquiry

namespace Heap

/-- Every record has the same fields in `later`. -/
def KeepsRecords (h later : Heap) : Prop :=
  ∀ (i : Nat) fields, h.records[i]? = some fields → later.records[i]? = some fields

namespace KeepsRecords

variable {h later latest : Heap}

theorem refl (h : Heap) : h.KeepsRecords h := fun _ _ hr => hr

theorem of_eq (hr : later.records = h.records) : h.KeepsRecords later := fun _ _ hi => hr ▸ hi

theorem trans (hl : h.KeepsRecords later) (hr : later.KeepsRecords latest) :
    h.KeepsRecords latest := fun i fields hi => hr i fields (hl i fields hi)

theorem lt (hk : h.KeepsRecords later) {id : RecordId} (hi : id.index < h.records.size) :
    id.index < later.records.size :=
  (Array.getElem?_eq_some_iff.mp (hk _ _ (Array.getElem?_eq_getElem hi))).1

theorem record_eq (hk : h.KeepsRecords later) {id : RecordId} (hi : id.index < h.records.size) :
    later.record id = h.record id := by
  have hr : h.records[id.index]? = some h.records[id.index] := Array.getElem?_eq_getElem hi
  simp [record, hr, hk _ _ hr]

theorem eq_of_lt (hk : h.KeepsRecords later) {id : RecordId} {i : Nat}
    (hi : i < (h.record id).length) : later.record id = h.record id := by
  apply hk.record_eq
  apply Nat.lt_of_not_le
  intro hn
  simp [record, Array.getElem?_eq_none hn] at hi

end KeepsRecords

theorem Declares.records_eq {h later : Heap} {frame : FrameId} {scope : Scope}
    {bindings : List (Slot × Expr)} (hd : Declares frame scope bindings h later) :
    later.records = h.records := by
  induction hd with
  | nil => rfl
  | delayed _ ih | function _ _ ih => exact ih

theorem Opens.keepsRecords {h later : Heap} {frame : FrameId} {scope : Scope}
    {bindings : List (Slot × Expr)} (ho : h.Opens frame scope bindings later) :
    h.KeepsRecords later := .of_eq ho.declares.records_eq

theorem keepsRecords_setState {h : Heap} {thunk : ThunkId} {state : ThunkState} :
    h.KeepsRecords (h.setState thunk state) := .refl _

theorem keepsRecords_addRecord (h : Heap) (fields : List (String × ThunkId)) :
    h.KeepsRecords (h.addRecord fields).2 := by
  intro i found hr
  have hi : i < h.records.size := (Array.getElem?_eq_some_iff.mp hr).1
  simpa [addRecord, Array.getElem?_push, Nat.ne_of_lt hi] using hr

theorem keepsRecords_openRecord {h heap : Heap} {scope : Scope} {fields : List Field}
    {id : RecordId} (ho : h.openRecord scope fields = (id, heap)) : h.KeepsRecords heap := by
  obtain ⟨frame, made, named, hopens, rfl⟩ := openRecord_opens ho
  exact hopens.keepsRecords.trans (keepsRecords_addRecord made named)

theorem keepsRecords_addClosure {h heap : Heap} {closure : Closure} {id : ClosureId}
    (ho : h.addClosure closure = (id, heap)) : h.KeepsRecords heap := by
  cases ho
  exact .refl _

theorem keepsRecords_openBlock {h heap : Heap} {scope inner : Scope} {body : List Stmt}
    (ho : h.openBlock scope body = (inner, heap)) : h.KeepsRecords heap := by
  obtain ⟨frame, _, hopens⟩ := openBlock_opens ho
  exact hopens.keepsRecords

theorem keepsRecords_openCall {h heap : Heap} {closure : Closure} {args : List Expr}
    {caller inner : Scope} (ho : h.openCall closure args caller = (inner, heap)) :
    h.KeepsRecords heap := by
  obtain ⟨frame, _, hopens⟩ := openCall_opens ho
  exact hopens.keepsRecords

theorem mem_record_of_field? {h : Heap} {record : RecordId} {field : String} {id : ThunkId}
    (hf : h.field? record field = some id) : (field, id) ∈ h.record record := by
  obtain ⟨⟨name, _⟩, he, rfl⟩ := Option.map_eq_some_iff.mp hf
  obtain rfl : name = field := by simpa using List.find?_some he
  exact List.mem_of_find?_eq_some he

theorem mem_fieldNames {h : Heap} {record : RecordId} {field : String} {id : ThunkId}
    (hf : h.field? record field = some id) : field ∈ h.fieldNames record :=
  List.mem_map.mpr ⟨_, mem_record_of_field? hf, rfl⟩

@[simp] theorem summary_setState (h : Heap) (id : ThunkId) (state : ThunkState) (d : Datum) :
    (h.setState id state).summary d = h.summary d := by cases d <;> rfl

end Heap

namespace Machine

variable {answers : Answers} {m m' : Machine} {control next : Control}

theorem keepsRecords_of_fieldMove {record : RecordId} {i : Nat}
    (h : FieldMove record i m (.next next m')) : m.heap.KeepsRecords m'.heap := by
  cases h with
  | start => exact Heap.keepsRecords_setState
  | ready | close => exact .refl _

theorem keepsRecords_of_step (h : m.step answers control = .next next m') :
    m.heap.KeepsRecords m'.heap := by
  cases move_of_step h with
  | record ho => exact Heap.keepsRecords_openRecord ho
  | function ho => exact Heap.keepsRecords_addClosure ho
  | nameStart | accessStart | memoize => exact Heap.keepsRecords_setState
  | block ho | blockOfNames _ ho => exact Heap.keepsRecords_openBlock ho
  | callee _ ho => exact Heap.keepsRecords_openCall ho
  | completeRecord _ hf | recordField hf =>
    have hk := keepsRecords_of_fieldMove hf
    exact hk
  | _ => exact .refl _

end Machine

end Inquiry
