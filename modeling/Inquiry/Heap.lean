import Inquiry.Datum
import Inquiry.Expr
set_option autoImplicit false

/-!
The heap of a pass: frames of names, delayed expressions, records and closures. Everything on it
is known by number and stays until the pass is over, so names may refer to each other freely.
-/

namespace Inquiry

inductive Binding where
  | value (d : Datum)
  | delayed (thunk : ThunkId)
  deriving DecidableEq, Repr

structure Entry where
  slot : Slot
  binding : Binding
  deriving DecidableEq, Repr

/-- The names of one block, call or record, each slot once, in the order of declaration. -/
abbrev Frame := List Entry

namespace Frame

def declare (slot : Slot) (binding : Binding) : Frame → Frame
  | [] => [⟨slot, binding⟩]
  | entry :: rest =>
    if entry.slot.id = slot.id then ⟨slot, binding⟩ :: rest
    else entry :: declare slot binding rest

def lookup (slot : Slot) : Frame → Option Binding
  | [] => none
  | entry :: rest => if entry.slot.id = slot.id then some entry.binding else lookup slot rest

theorem lookup_declare (slot other : Slot) (binding : Binding) (frame : Frame) :
    (declare slot binding frame).lookup other =
      if other.id = slot.id then some binding else frame.lookup other := by
  induction frame with
  | nil => simp [declare, lookup, eq_comm]
  | cons entry rest ih =>
    by_cases h : entry.slot.id = slot.id <;> by_cases ho : entry.slot.id = other.id <;>
      grind [declare, lookup]

end Frame

/-- The frames in view at some place of a program, the innermost first. -/
abbrev Scope := List FrameId

inductive ThunkState where
  | unforced
  /-- Under evaluation: whoever needs it now needs it for its own value. -/
  | forcing
  | forced (d : Datum)
  deriving DecidableEq, Repr

structure Thunk where
  label : String
  expr : Expr
  scope : Scope
  state : ThunkState

instance : Inhabited Thunk := ⟨⟨"", default, [], .unforced⟩⟩

structure Closure where
  name : Option String
  params : List Slot
  body : Expr
  scope : Scope

instance : Inhabited Closure := ⟨⟨none, [], default, []⟩⟩

structure Heap where
  frames : Array Frame
  thunks : Array Thunk
  records : Array (List (String × ThunkId))
  closures : Array Closure

namespace Heap

def initial : Heap := ⟨#[[]], #[], #[], #[]⟩

def globalFrame : FrameId := ⟨0⟩

def frame (h : Heap) (id : FrameId) : Frame := h.frames[id.index]?.getD []

def thunk (h : Heap) (id : ThunkId) : Thunk := h.thunks[id.index]?.getD default

def record (h : Heap) (id : RecordId) : List (String × ThunkId) := h.records[id.index]?.getD []

def closure (h : Heap) (id : ClosureId) : Closure := h.closures[id.index]?.getD default

def addFrame : Heap → FrameId × Heap
  | ⟨frames, thunks, records, closures⟩ =>
    (⟨frames.size⟩, ⟨frames.push [], thunks, records, closures⟩)

def declare : Heap → FrameId → Slot → Binding → Heap
  | ⟨frames, thunks, records, closures⟩, id, slot, binding =>
    ⟨frames.modify id.index (Frame.declare slot binding), thunks, records, closures⟩

/-- The binding in the innermost frame that has one. -/
def lookup (h : Heap) (slot : Slot) : Scope → Option Binding
  | [] => none
  | id :: outer =>
    match (h.frame id).lookup slot with
    | some binding => some binding
    | none => h.lookup slot outer

def delay : Heap → String → Expr → Scope → ThunkId × Heap
  | ⟨frames, thunks, records, closures⟩, label, expr, scope =>
    (⟨thunks.size⟩, ⟨frames, thunks.push ⟨label, expr, scope, .unforced⟩, records, closures⟩)

def setState : Heap → ThunkId → ThunkState → Heap
  | ⟨frames, thunks, records, closures⟩, id, state =>
    ⟨frames, thunks.modify id.index fun t => { t with state }, records, closures⟩

def addRecord : Heap → List (String × ThunkId) → RecordId × Heap
  | ⟨frames, thunks, records, closures⟩, fields =>
    (⟨records.size⟩, ⟨frames, thunks, records.push fields, closures⟩)

def addClosure : Heap → Closure → ClosureId × Heap
  | ⟨frames, thunks, records, closures⟩, closure =>
    (⟨closures.size⟩, ⟨frames, thunks, records, closures.push closure⟩)

def declareDelayed (h : Heap) (id : FrameId) (slot : Slot) (label : String) (expr : Expr)
    (scope : Scope) : ThunkId × Heap :=
  let (thunk, h) := h.delay label expr scope
  (thunk, h.declare id slot (.delayed thunk))

def forced? (h : Heap) (id : ThunkId) : Option Datum :=
  match (h.thunk id).state with
  | .forced d => some d
  | _ => none

def fieldNames (h : Heap) (id : RecordId) : List String := (h.record id).map Prod.fst

/-- The first field of that name. -/
def field? (h : Heap) (id : RecordId) (name : String) : Option ThunkId :=
  ((h.record id).find? fun field => field.1 == name).map Prod.snd

def summary (h : Heap) : Datum → Summary
  | .number n => .number n
  | .boolean b => .boolean b
  | .record id => .record (h.fieldNames id)
  | .closure id => .function (h.closure id).name
  | .undefined => .undefined

end Heap

end Inquiry
