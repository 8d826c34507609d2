import Inquiry.Heap
set_option autoImplicit false

/-!
What the host may see of a heap. Looking never evaluates anything: what has no value yet is left
out, and so is a field that leads back to a record it is part of.
-/

namespace Inquiry

def Datum.isAmong (opened : List RecordId) : Datum → Bool
  | .record id => opened.contains id
  | _ => false

namespace Heap

/-- Shows a value inside the records in `opened`, down to `depth` records deep. -/
def revealWithin (h : Heap) : Nat → List RecordId → Datum → Value
  | _, _, .number n => .number n
  | _, _, .boolean b => .boolean b
  | _, _, .closure id => .function (h.closure id).name
  | _, _, .undefined => .undefined
  | 0, _, .record _ => .record .nil
  | depth + 1, opened, .record id =>
    .record <| Fields.ofList <| (h.record id).filterMap fun (name, thunk) =>
      match h.forced? thunk with
      | none => none
      | some d =>
        if d.isAmong (id :: opened) then none
        else some (name, h.revealWithin depth (id :: opened) d)

/-- No more records can be nested in each other than there are. -/
def reveal (h : Heap) (d : Datum) : Value := h.revealWithin h.records.size [] d

end Heap

/-- The global names of a pass, as the host sees them. Before any pass there are none. -/
structure Globals where
  heap : Option Heap

namespace Globals

def empty : Globals := ⟨none⟩

def insertEntry (entry : Entry) : List Entry → List Entry
  | [] => [entry]
  | other :: rest =>
    if entry.slot.id < other.slot.id then entry :: other :: rest
    else other :: insertEntry entry rest

def entries (g : Globals) : List Entry :=
  match g.heap with
  | some h => (h.frame Heap.globalFrame).foldr insertEntry []
  | none => []

def names (g : Globals) : List String := g.entries.map fun entry => entry.slot.name

/-- The value of the last of the entries with this name, if it is known already. -/
def valueAmong (h : Heap) (entries : List Entry) (name : String) : Option Value :=
  match (entries.reverse.find? fun entry => entry.slot.name == name).map Entry.binding with
  | some (.value d) => some (h.reveal d)
  | some (.delayed thunk) => (h.forced? thunk).map h.reveal
  | none => none

def get? (g : Globals) (name : String) : Option Value :=
  g.heap.bind fun h => valueAmong h g.entries name

def rows (g : Globals) : List (String × Option Value) :=
  let entries := g.entries
  entries.map fun entry =>
    (entry.slot.name, g.heap.bind fun h => valueAmong h entries entry.slot.name)

end Globals

end Inquiry
