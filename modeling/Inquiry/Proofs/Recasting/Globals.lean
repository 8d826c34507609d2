import Mathlib.Data.List.Perm.Basic
import Inquiry.Proofs.Recasting.Heap
set_option autoImplicit false

namespace Inquiry

def Binding.value? (h : Heap) : Binding → Option Value
  | .value d => some (h.reveal d)
  | .delayed thunk => (h.forced? thunk).map h.reveal

def Entry.reading (h : Heap) (entry : Entry) : String × Option Value :=
  (entry.slot.name, entry.binding.value? h)

theorem find?_eq_of_perm {α : Type} {p : α → Bool} {as bs : List α} (h : as.Perm bs)
    (hb : (bs.filter p).length ≤ 1) : as.find? p = bs.find? p := by
  have hperm := h.filter p
  rw [← List.head?_filter, ← List.head?_filter]
  generalize bs.filter p = found at hperm hb
  match found with
  | [] => rw [hperm.eq_nil]
  | [b] => rw [List.perm_singleton.mp hperm]
  | _ :: _ :: _ => simp at hb

namespace Globals

/-- Every global name with what its own entry is bound to, equal names apart. -/
def readings (g : Globals) : List (String × Option Value) :=
  match g.heap with
  | some h => g.entries.map (Entry.reading h)
  | none => []

theorem names_eq (g : Globals) : g.names = g.readings.map Prod.fst := by
  obtain ⟨_ | h⟩ := g
  · rfl
  · exact (List.map_map (g := Prod.fst) (f := Entry.reading h)).symm

theorem get?_eq (g : Globals) (name : String) :
    g.get? name = (g.readings.reverse.find? fun reading => reading.1 == name).bind Prod.snd := by
  obtain ⟨_ | h⟩ := g
  · rfl
  · simp only [get?, Option.bind_some, valueAmong, readings, ← List.map_reverse, List.find?_map]
    have hfind : (fun reading : String × Option Value => reading.1 == name) ∘ Entry.reading h =
        fun entry => entry.slot.name == name := rfl
    rw [hfind]
    cases List.find? (fun entry : Entry => entry.slot.name == name) (entries ⟨some h⟩).reverse with
    | none => rfl
    | some entry =>
      obtain ⟨slot, binding⟩ := entry
      cases binding <;> rfl

theorem insertEntry_perm (entry : Entry) (entries : List Entry) :
    (insertEntry entry entries).Perm (entry :: entries) := by
  induction entries with
  | nil => exact .refl _
  | cons other rest ih =>
    rw [insertEntry]
    split
    · exact .refl _
    · exact (ih.cons other).trans (.swap entry other rest)

theorem entries_perm (h : Heap) : (entries ⟨some h⟩).Perm (h.frame Heap.globalFrame) := by
  simp only [entries]
  induction h.frame Heap.globalFrame with
  | nil => exact .refl _
  | cons entry rest ih => exact (insertEntry_perm entry _).trans (ih.cons entry)

/-- Whether the same can be read, the order apart. Of equally named entries another one may be
chosen. -/
structure Alike (g other : Globals) : Prop where
  names : other.names.Perm g.names
  get?_mem : ∀ name ∈ g.names, (name, other.get? name) ∈ g.readings
  get?_eq : ∀ name, g.names.count name ≤ 1 → other.get? name = g.get? name

theorem mem_readings_of_mem_names {g : Globals} {name : String} (hn : name ∈ g.names) :
    (name, g.get? name) ∈ g.readings := by
  rw [names_eq] at hn
  obtain ⟨reading, hr, rfl⟩ := List.mem_map.mp hn
  rw [get?_eq]
  cases hf : g.readings.reverse.find? fun other => other.1 == reading.1 with
  | none =>
    have hne := List.find?_eq_none.mp hf reading (List.mem_reverse.mpr hr)
    simp at hne
  | some found =>
    have hfound := List.find?_some hf
    rw [← show found.1 = reading.1 from eq_of_beq hfound]
    exact List.mem_reverse.mp (List.mem_of_find?_eq_some hf)

theorem alike_of_perm {g other : Globals} (h : other.readings.Perm g.readings) : g.Alike other := by
  have hnames : other.names.Perm g.names := by
    rw [names_eq, names_eq]
    exact h.map Prod.fst
  refine ⟨hnames, fun name hn => ?_, fun name hc => ?_⟩
  · exact h.mem_iff.mp (mem_readings_of_mem_names (hnames.mem_iff.mpr hn))
  · have hperm := (List.reverse_perm _).trans (h.trans (List.reverse_perm _).symm)
    rw [get?_eq, get?_eq, find?_eq_of_perm hperm]
    rw [names_eq, List.count, List.countP_map, List.countP_eq_length_filter] at hc
    rw [List.filter_reverse, List.length_reverse]
    exact hc

variable {r : Recasting} (hr : r.Faithful)
include hr

theorem alike_recast (g : Globals) : g.Alike ⟨g.heap.map (Heap.recast r)⟩ := by
  obtain ⟨_ | h⟩ := g
  · exact alike_of_perm (.refl _)
  · have hreading (entry : Entry) :
        (entry.recast r).reading (h.recast r) = entry.reading h := by
      obtain ⟨slot, binding⟩ := entry
      have hname : (r.slot slot).name = slot.name := hr.name_eq slot
      have hreveal : (h.recast r).reveal = h.reveal := funext (Heap.reveal_recast r h)
      cases binding <;> simp only [Entry.reading, Entry.recast, Binding.value?, hname, hreveal,
        Heap.forced?_recast]
    have hframe : (h.recast r).frame Heap.globalFrame =
        (h.frame Heap.globalFrame).map (Entry.recast r) := Heap.frame_recast r h Heap.globalFrame
    have hmap : ((h.recast r).frame Heap.globalFrame).map (Entry.reading (h.recast r)) =
        (h.frame Heap.globalFrame).map (Entry.reading h) := by
      rw [hframe, List.map_map]
      exact List.map_congr_left fun entry _ => hreading entry
    have hbefore := (entries_perm h).map (Entry.reading h)
    have hafter := (entries_perm (h.recast r)).map (Entry.reading (h.recast r))
    exact alike_of_perm (hafter.trans (hmap ▸ hbefore.symm))

end Globals

end Inquiry
