import Inquiry.Proofs.Heap.Reading
import Inquiry.Proofs.Machine.Move
set_option autoImplicit false

namespace Inquiry

def Stmt.bindings : List Stmt → List (Slot × Expr)
  | [] => []
  | .bind slot value :: rest => (slot, value) :: bindings rest
  | .expr _ :: rest => bindings rest

theorem Stmt.mem_of_bindings {body : List Stmt} {slot : Slot} {e : Expr}
    (h : (slot, e) ∈ bindings body) : .bind slot e ∈ body := by
  induction body with
  | nil => contradiction
  | cons stmt rest ih =>
    cases stmt with
    | expr last => exact List.mem_cons_of_mem _ (ih h)
    | bind other value =>
      rcases List.mem_cons.mp h with he | hr
      · cases he
        exact List.mem_cons_self
      · exact List.mem_cons_of_mem _ (ih hr)

theorem Stmt.mem_bindings {body : List Stmt} {slot : Slot} {e : Expr}
    (h : .bind slot e ∈ body) : (slot, e) ∈ bindings body := by
  induction body with
  | nil => contradiction
  | cons stmt rest ih =>
    rcases List.mem_cons.mp h with rfl | hr
    · exact List.mem_cons_self
    · cases stmt with
      | expr last => exact ih hr
      | bind other value => exact List.mem_cons_of_mem _ (ih hr)

def Field.bindings (fields : List Field) : List (Slot × Expr) :=
  fields.map fun field => (field.slot, field.value)

def slotIds (bindings : List (Slot × Expr)) : List Nat := bindings.map fun binding => binding.1.id

theorem slotIds_zip {params : List Slot} {args : List Expr} (h : params.length = args.length) :
    slotIds (params.zip args) = params.map Slot.id :=
  calc slotIds (params.zip args)
    _ = ((params.zip args).map Prod.fst).map Slot.id := (List.map_map).symm
    _ = params.map Slot.id := by rw [List.map_fst_zip (Nat.le_of_eq h)]

namespace Frame

def slotIds (frame : Frame) : List Nat := frame.map fun entry => entry.slot.id

theorem lookup_eq_none_iff {frame : Frame} {slot : Slot} :
    frame.lookup slot = none ↔ slot.id ∉ frame.slotIds := by
  induction frame with
  | nil => simp [lookup, slotIds]
  | cons entry rest ih => grind [lookup, slotIds]

theorem mem_slotIds_declare {frame : Frame} {slot : Slot} {binding : Binding} {id : Nat} :
    id ∈ (declare slot binding frame).slotIds ↔ id = slot.id ∨ id ∈ frame.slotIds := by
  induction frame with
  | nil => simp [declare, slotIds]
  | cons entry rest ih => grind [declare, slotIds]

end Frame

namespace Heap

variable {h later latest : Heap} {frame : FrameId} {scope outer : Scope}
  {bindings : List (Slot × Expr)}

/-- The slots that can be read in a scope. -/
def inView (h : Heap) (scope : Scope) : List Nat := scope.flatMap fun id => (h.frame id).slotIds

theorem lookup_eq_none_iff {slot : Slot} :
    h.lookup slot scope = none ↔ slot.id ∉ h.inView scope := by
  induction scope with
  | nil => simp [lookup, inView]
  | cons id outer ih =>
    have hcons : h.inView (id :: outer) = (h.frame id).slotIds ++ h.inView outer := rfl
    rw [hcons, List.mem_append, not_or, ← ih, ← Frame.lookup_eq_none_iff, lookup]
    cases (h.frame id).lookup slot <;> simp

/-- No frame has lost a slot. -/
def Shows (h later : Heap) : Prop := ∀ id, (h.frame id).slotIds ⊆ (later.frame id).slotIds

namespace Shows

theorem refl (h : Heap) : h.Shows h := fun _ => List.Subset.refl _

theorem trans (hl : h.Shows later) (hr : later.Shows latest) : h.Shows latest :=
  fun id => List.Subset.trans (hl id) (hr id)

theorem inView (hs : h.Shows later) (scope : Scope) : h.inView scope ⊆ later.inView scope := by
  intro slot hm
  obtain ⟨id, hi, hslot⟩ := List.mem_flatMap.mp hm
  exact List.mem_flatMap.mpr ⟨id, hi, hs id hslot⟩

theorem addFrame (h : Heap) : h.Shows h.addFrame.2 := by
  intro id
  rw [frame_addFrame]
  exact List.Subset.refl _

theorem declare (h : Heap) (frame : FrameId) (slot : Slot) (binding : Binding) :
    h.Shows (h.declare frame slot binding) := by
  intro id other hm
  rw [frame_declare]
  split
  · rename_i hi
    rw [Frame.mem_slotIds_declare, ← hi.1]
    exact .inr hm
  · exact hm

end Shows

theorem mem_declare {slot : Slot} {binding : Binding} (hf : frame.index < h.frames.size) :
    slot.id ∈ ((h.declare frame slot binding).frame frame).slotIds := by
  rw [frame_declare, if_pos ⟨rfl, hf⟩, Frame.mem_slotIds_declare]
  exact .inl rfl

theorem frames_size_declare {slot : Slot} {binding : Binding} :
    (h.declare frame slot binding).frames.size = h.frames.size := by
  simp [declare]

/-- Slots are declared in a frame one after the other, for what is evaluated in the scope. -/
inductive Declares (frame : FrameId) (scope : Scope) :
    List (Slot × Expr) → Heap → Heap → Prop where
  | nil {h : Heap} : Declares frame scope [] h h
  | delayed {h later : Heap} {slot : Slot} {label : String} {e : Expr}
      {rest : List (Slot × Expr)}
      (hr : Declares frame scope rest (h.declareDelayed frame slot label e scope).2 later) :
      Declares frame scope ((slot, e) :: rest) h later
  | function {h later : Heap} {slot : Slot} {name : Option String} {params : List Slot}
      {body : Expr} {id : ClosureId} {rest : List (Slot × Expr)}
      (hi : id = (h.addClosure ⟨name, params, body, scope⟩).1)
      (hr : Declares frame scope rest ((h.addClosure ⟨name, params, body, scope⟩).2.declare frame
        slot (.value (.closure id))) later) :
      Declares frame scope ((slot, .function name params body) :: rest) h later

theorem declares_bindAll (h : Heap) (frame : FrameId) (outer : Scope) (body : List Stmt) :
    Declares frame (frame :: outer) (Stmt.bindings body) h (h.bindAll frame outer body) := by
  induction body generalizing h with
  | nil => exact .nil
  | cons stmt rest ih =>
    cases stmt with
    | expr e => exact ih h
    | bind slot value =>
      cases value with
      | function name params body => exact .function rfl (ih _)
      | _ => exact .delayed (ih _)

theorem declares_bindFields (h : Heap) (frame : FrameId) (outer : Scope) (fields : List Field) :
    Declares frame (frame :: outer) (Field.bindings fields) h
      (h.bindFields frame outer fields).2 := by
  induction fields generalizing h with
  | nil => exact .nil
  | cons field rest ih =>
    obtain ⟨name, slot, value⟩ := field
    exact .delayed (ih _)

theorem declares_bindParams (h : Heap) (frame : FrameId) (caller : Scope) (params : List Slot)
    (args : List Expr) :
    Declares frame caller (params.zip args) h (h.bindParams frame caller params args) := by
  induction params generalizing h args with
  | nil => exact .nil
  | cons param params ih =>
    cases args with
    | nil => exact .nil
    | cons arg args => exact .delayed (ih _ _)

namespace Declares

theorem shows (hd : Declares frame scope bindings h later) : h.Shows later := by
  induction hd with
  | nil => exact .refl _
  | delayed hr ih => exact (Shows.declare _ _ _ _).trans ih
  | function hi hr ih => exact (Shows.declare _ _ _ _).trans ih

theorem slotIds_subset (hd : Declares frame scope bindings h later)
    (hf : frame.index < h.frames.size) :
    slotIds bindings ⊆ (later.frame frame).slotIds := by
  induction hd with
  | nil => exact List.nil_subset _
  | delayed hr ih =>
    have hrest := ih (Nat.lt_of_lt_of_eq hf frames_size_declare.symm)
    exact List.cons_subset.mpr ⟨hr.shows _ (mem_declare hf), hrest⟩
  | function hi hr ih =>
    have hrest := ih (Nat.lt_of_lt_of_eq hf frames_size_declare.symm)
    exact List.cons_subset.mpr ⟨hr.shows _ (mem_declare hf), hrest⟩

end Declares

structure Opens (h : Heap) (frame : FrameId) (scope : Scope) (bindings : List (Slot × Expr))
    (later : Heap) : Prop where
  frame_eq : frame = h.addFrame.1
  declares : Declares frame scope bindings h.addFrame.2 later

namespace Opens

theorem shows (ho : h.Opens frame scope bindings later) : h.Shows later :=
  (Shows.addFrame h).trans ho.declares.shows

theorem inView (ho : h.Opens frame scope bindings later) (outer : Scope) :
    slotIds bindings ++ h.inView outer ⊆ later.inView (frame :: outer) := by
  have hf : frame.index < h.addFrame.2.frames.size := by
    rw [ho.frame_eq]
    simp [addFrame]
  have hslots := ho.declares.slotIds_subset hf
  exact List.append_subset.mpr ⟨List.subset_append_of_subset_left _ hslots,
    List.subset_append_of_subset_right _ (ho.shows.inView outer)⟩

end Opens

theorem openBlock_opens {inner : Scope} {body : List Stmt}
    (ho : h.openBlock outer body = (inner, later)) :
    ∃ frame, inner = frame :: outer ∧ h.Opens frame inner (Stmt.bindings body) later := by
  cases ho
  exact ⟨_, rfl, rfl, declares_bindAll _ _ _ _⟩

theorem openCall_opens {closure : Closure} {args : List Expr} {caller inner : Scope}
    (ho : h.openCall closure args caller = (inner, later)) :
    ∃ frame, inner = frame :: closure.scope ∧
      h.Opens frame caller (closure.params.zip args) later := by
  cases ho
  exact ⟨_, rfl, rfl, declares_bindParams _ _ _ _ _⟩

/-- The record itself is made once its fields are declared. -/
theorem openRecord_opens {fields : List Field} {id : RecordId}
    (ho : h.openRecord outer fields = (id, latest)) : ∃ frame made named,
      h.Opens frame (frame :: outer) (Field.bindings fields) made ∧
        latest = (made.addRecord named).2 := by
  cases ho
  exact ⟨_, _, _, ⟨rfl, declares_bindFields _ _ _ _⟩, rfl⟩

end Heap

end Inquiry
