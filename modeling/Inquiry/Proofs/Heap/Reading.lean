import Inquiry.Heap
set_option autoImplicit false

namespace Inquiry

namespace Heap

variable (h : Heap)

theorem thunk_delay (label : String) (e : Expr) (scope : Scope) (id : ThunkId) :
    (h.delay label e scope).2.thunk id =
      if id.index = h.thunks.size then ⟨label, e, scope, .unforced⟩ else h.thunk id := by
  simp only [thunk, delay, Array.getElem?_push]
  split <;> rfl

theorem thunk_setState (id other : ThunkId) (state : ThunkState) :
    (h.setState id state).thunk other =
      if other = id ∧ id.index < h.thunks.size then { h.thunk id with state }
      else h.thunk other := by
  obtain ⟨i⟩ := id
  obtain ⟨j⟩ := other
  simp only [thunk, setState, Array.getElem?_modify, ThunkId.mk.injEq]
  grind

theorem frame_declare (id other : FrameId) (slot : Slot) (binding : Binding) :
    (h.declare id slot binding).frame other =
      if other = id ∧ id.index < h.frames.size then (h.frame id).declare slot binding
      else h.frame other := by
  obtain ⟨i⟩ := id
  obtain ⟨j⟩ := other
  simp only [frame, declare, Array.getElem?_modify, FrameId.mk.injEq]
  grind

theorem frame_addFrame (id : FrameId) : h.addFrame.2.frame id = h.frame id := by
  simp only [frame, addFrame, Array.getElem?_push]
  grind

theorem frame_addFrame_new : h.addFrame.2.frame h.addFrame.1 = [] := by
  simp [frame, addFrame]

theorem record_push (fields : List (String × ThunkId)) (id : RecordId) :
    (h.addRecord fields).2.record id =
      if id.index = h.records.size then fields else h.record id := by
  simp only [record, addRecord, Array.getElem?_push]
  split <;> rfl

theorem closure_push (closure : Closure) (id : ClosureId) :
    (h.addClosure closure).2.closure id =
      if id.index = h.closures.size then closure else h.closure id := by
  simp only [Heap.closure, addClosure, Array.getElem?_push]
  split <;> rfl

end Heap

end Inquiry
