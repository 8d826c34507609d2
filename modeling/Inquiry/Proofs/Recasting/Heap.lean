import Inquiry.Heap.Reveal
import Inquiry.Proofs.Recasting.Expr
set_option autoImplicit false

namespace Inquiry

/-- Slots are told apart as before and keep their names. -/
structure Recasting.Faithful (r : Recasting) : Prop where
  id_eq_iff {slot other : Slot} : (r.slot slot).id = (r.slot other).id ↔ slot.id = other.id
  name_eq (slot : Slot) : (r.slot slot).name = slot.name
  emit_eq (tape : Tape) (rule : Rule) : (r.tape tape).emit rule = r.tape (tape.emit rule)

section

variable (r : Recasting)

def Entry.recast (entry : Entry) : Entry := { entry with slot := r.slot entry.slot }

def Frame.recast (frame : Frame) : Frame := frame.map (Entry.recast r)

def Thunk.recast (thunk : Thunk) : Thunk := { thunk with expr := thunk.expr.recast r }

def Closure.recast (closure : Closure) : Closure :=
  { closure with params := closure.params.map r.slot, body := closure.body.recast r }

def Heap.recast (h : Heap) : Heap :=
  ⟨h.frames.map (Frame.recast r), h.thunks.map (Thunk.recast r), h.records,
    h.closures.map (Closure.recast r)⟩

/-- Whether a declaration of this value is bound at once. -/
def Expr.isFunction : Expr → Bool
  | .function _ _ _ => true
  | _ => false

def Recasting.KeepsFunctions (bindings : List (Slot × Expr)) : Prop :=
  ∀ binding ∈ bindings, (binding.2.recast r).isFunction = binding.2.isFunction

end

theorem Expr.isFunction_iff {e : Expr} :
    e.isFunction = true ↔ ∃ name params body, e = .function name params body := by
  cases e <;> simp [isFunction]

theorem Heap.bindAll_of_delayed {h : Heap} {frame : FrameId} {outer : Scope} {slot : Slot}
    {value : Expr} {rest : List Stmt} (hv : value.isFunction = false) :
    h.bindAll frame outer (.bind slot value :: rest) =
      (h.declareDelayed frame slot slot.name value (frame :: outer)).2.bindAll frame outer
        rest := by
  cases value with
  | function => contradiction
  | _ => rfl

theorem modify_map {α β : Type} {g : α → β} {f : α → α} {f' : β → β}
    (hf : ∀ a, f' (g a) = g (f a)) (as : Array α) (i : Nat) :
    (as.map g).modify i f' = (as.modify i f).map g := by
  apply Array.ext_getElem?
  intro j
  simp only [Array.getElem?_modify, Array.getElem?_map]
  split
  · cases as[j]? with
    | none => rfl
    | some a => exact congrArg some (hf a)
  · rfl

variable {r : Recasting}

theorem Stmt.lastExpr?_recast (body : List Stmt) :
    lastExpr? (body.map (Stmt.recast r)) = (lastExpr? body).map (Expr.recast r) := by
  induction body with
  | nil => rfl
  | cons stmt rest ih =>
    cases stmt with
    | bind slot value => exact ih
    | expr value =>
      simp only [List.map_cons, recast, lastExpr?, ih]
      cases lastExpr? rest <;> rfl

namespace Heap

variable (r) (h : Heap)

theorem frame_recast (id : FrameId) : (h.recast r).frame id = (h.frame id).recast r := by
  simp only [frame, recast, Array.getElem?_map]
  cases h.frames[id.index]? <;> rfl

theorem thunk_recast (id : ThunkId) : (h.recast r).thunk id = (h.thunk id).recast r := by
  simp only [thunk, recast, Array.getElem?_map]
  cases h.thunks[id.index]? <;> rfl

theorem closure_recast (id : ClosureId) :
    (h.recast r).closure id = (h.closure id).recast r := by
  simp only [Heap.closure, recast, Array.getElem?_map]
  cases h.closures[id.index]? <;> rfl

theorem forced?_recast (id : ThunkId) : (h.recast r).forced? id = h.forced? id := by
  rw [forced?, thunk_recast]
  rfl

theorem summary_recast (d : Datum) : (h.recast r).summary d = h.summary d := by
  cases d with
  | closure id =>
    rw [summary, closure_recast]
    rfl
  | _ => rfl

theorem initial_recast : initial.recast r = initial := by
  simp [initial, recast, Frame.recast]

theorem addFrame_recast :
    (h.recast r).addFrame = (h.addFrame.1, h.addFrame.2.recast r) := by
  simp [addFrame, recast, Frame.recast]

theorem delay_recast (label : String) (e : Expr) (scope : Scope) :
    (h.recast r).delay label (e.recast r) scope =
      ((h.delay label e scope).1, (h.delay label e scope).2.recast r) := by
  simp [delay, recast, Thunk.recast]

theorem addClosure_recast (closure : Closure) :
    (h.recast r).addClosure (closure.recast r) =
      ((h.addClosure closure).1, (h.addClosure closure).2.recast r) := by
  simp [addClosure, recast]

theorem addRecord_recast (fields : List (String × ThunkId)) :
    (h.recast r).addRecord fields =
      ((h.addRecord fields).1, (h.addRecord fields).2.recast r) := rfl

theorem setState_recast (id : ThunkId) (state : ThunkState) :
    (h.recast r).setState id state = (h.setState id state).recast r :=
  congrArg (fun thunks => Heap.mk _ thunks _ _)
    (modify_map (g := Thunk.recast r) (f := ({ · with state })) (fun _ => rfl) h.thunks id.index)

theorem reveal_recast (d : Datum) : (h.recast r).reveal d = h.reveal d := by
  suffices hwithin : ∀ depth opened d,
      (h.recast r).revealWithin depth opened d = h.revealWithin depth opened d from hwithin _ _ d
  intro depth
  induction depth with
  | zero =>
    intro opened d
    cases d with
    | closure id =>
      simp only [revealWithin, closure_recast]
      rfl
    | _ => rfl
  | succ depth ih =>
    intro opened d
    cases d with
    | closure id =>
      simp only [revealWithin, closure_recast]
      rfl
    | record id =>
      simp only [revealWithin, forced?_recast, ih]
      rfl
    | _ => rfl

end Heap

section

variable (hr : r.Faithful)
include hr

theorem Frame.lookup_recast (slot : Slot) (frame : Frame) :
    (frame.recast r).lookup (r.slot slot) = frame.lookup slot := by
  induction frame with
  | nil => rfl
  | cons entry rest ih =>
    simp only [recast, List.map_cons, lookup, Entry.recast, hr.id_eq_iff]
    exact congrArg (ite _ _) ih

theorem Frame.declare_recast (slot : Slot) (binding : Binding) (frame : Frame) :
    declare (r.slot slot) binding (frame.recast r) = (declare slot binding frame).recast r := by
  induction frame with
  | nil => rfl
  | cons entry rest ih =>
    simp only [recast, List.map_cons, declare, Entry.recast, hr.id_eq_iff]
    split
    · rfl
    · exact congrArg (List.cons _) ih

namespace Heap

theorem lookup_recast (h : Heap) (slot : Slot) (scope : Scope) :
    (h.recast r).lookup (r.slot slot) scope = h.lookup slot scope := by
  induction scope with
  | nil => rfl
  | cons id outer ih => rw [lookup, lookup, frame_recast, Frame.lookup_recast hr, ih]

theorem declare_recast (h : Heap) (frame : FrameId) (slot : Slot) (binding : Binding) :
    (h.recast r).declare frame (r.slot slot) binding =
      (h.declare frame slot binding).recast r :=
  congrArg (fun frames => Heap.mk frames _ _ _)
    (modify_map (Frame.declare_recast hr slot binding) h.frames frame.index)

theorem declareDelayed_recast (h : Heap) (frame : FrameId) (slot : Slot) (label : String)
    (e : Expr) (scope : Scope) :
    (h.recast r).declareDelayed frame (r.slot slot) label (e.recast r) scope =
      ((h.declareDelayed frame slot label e scope).1,
        (h.declareDelayed frame slot label e scope).2.recast r) := by
  simp only [declareDelayed, delay_recast, declare_recast hr]

theorem bindFields_recast (h : Heap) (frame : FrameId) (outer : Scope) (fields : List Field) :
    (h.recast r).bindFields frame outer (fields.map (Field.recast r)) =
      ((h.bindFields frame outer fields).1, (h.bindFields frame outer fields).2.recast r) := by
  induction fields generalizing h with
  | nil => rfl
  | cons field rest ih =>
    obtain ⟨name, slot, value⟩ := field
    simp only [List.map_cons, Field.recast, bindFields, declareDelayed_recast hr, ih]

theorem bindParams_recast (h : Heap) (frame : FrameId) (caller : Scope) (params : List Slot)
    (args : List Expr) :
    (h.recast r).bindParams frame caller (params.map r.slot) (args.map (Expr.recast r)) =
      (h.bindParams frame caller params args).recast r := by
  induction params generalizing h args with
  | nil => rfl
  | cons param params ih =>
    cases args with
    | nil => rfl
    | cons arg args =>
      simp only [List.map_cons, bindParams, hr.name_eq, declareDelayed_recast hr, ih]

theorem bindAll_recast (h : Heap) (frame : FrameId) (outer : Scope) {body : List Stmt}
    (hb : r.KeepsFunctions (Stmt.bindings body)) :
    (h.recast r).bindAll frame outer (body.map (Stmt.recast r)) =
      (h.bindAll frame outer body).recast r := by
  induction body generalizing h with
  | nil => rfl
  | cons stmt rest ih =>
    cases stmt with
    | expr value => exact ih h hb
    | bind slot value =>
      obtain ⟨hvalue, hrest⟩ := List.forall_mem_cons.mp hb
      simp only [List.map_cons, Stmt.recast]
      cases hf : value.isFunction with
      | false =>
        rw [bindAll_of_delayed hf, bindAll_of_delayed (hvalue.trans hf), hr.name_eq,
          declareDelayed_recast hr, ih _ hrest]
      | true =>
        obtain ⟨name, params, e, rfl⟩ := Expr.isFunction_iff.mp hf
        have hadd := addClosure_recast r h ⟨name, params, e, frame :: outer⟩
        simp only [Closure.recast] at hadd
        simp only [Expr.recast, bindAll, hadd, declare_recast hr, ih _ hrest]

end Heap

end

end Inquiry
