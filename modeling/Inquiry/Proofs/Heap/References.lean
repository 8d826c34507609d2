import Inquiry.Proofs.Heap.Records
set_option autoImplicit false

/-!
References on a heap. What is said to be on a heap is there, and a frame lies in frames that were
opened before it, so that a search outward comes to an end.
-/

namespace Inquiry

/-- The frame that each frame was opened in; the global frame was opened in none. -/
abbrev Parents := Array (Option FrameId)

def Parents.ExtendsTo (parents later : Parents) : Prop :=
  ∀ (i : Nat) (parent : Option FrameId), parents[i]? = some parent → later[i]? = some parent

/-- The scope lists a frame, its parent, and so on up to the global frame. -/
inductive Scope.Nests (parents : Parents) : Scope → Prop where
  | outermost {id : FrameId} (h : parents[id.index]? = some none) : Nests parents [id]
  | inside {id outer : FrameId} {rest : Scope} (h : parents[id.index]? = some (some outer))
      (hr : Nests parents (outer :: rest)) : Nests parents (id :: outer :: rest)

def Datum.Known (h : Heap) : Datum → Prop
  | .record id => id.index < h.records.size
  | .closure id => id.index < h.closures.size
  | _ => True

def Binding.Known (h : Heap) : Binding → Prop
  | .value d => d.Known h
  | .delayed id => id.index < h.thunks.size

def ThunkState.Known (h : Heap) : ThunkState → Prop
  | .forced d => d.Known h
  | _ => True

/-- Every reference on the heap leads to something on it, and every frame but the global one lies
in an earlier one. -/
structure Heap.Sound (parents : Parents) (h : Heap) : Prop where
  parents_size : parents.size = h.frames.size
  outermost : ∀ i, parents[i]? = some none ↔ i = 0
  earlier : ∀ (i : Nat) (outer : FrameId), parents[i]? = some (some outer) → outer.index < i
  frame : ∀ frame ∈ h.frames, ∀ entry ∈ frame, entry.binding.Known h
  thunk : ∀ thunk ∈ h.thunks, thunk.scope.Nests parents ∧ thunk.state.Known h
  record : ∀ fields ∈ h.records, ∀ field ∈ fields, field.2.index < h.thunks.size
  closure : ∀ closure ∈ h.closures, closure.scope.Nests parents

structure Heap.Grows (h later : Heap) : Prop where
  thunks : h.thunks.size ≤ later.thunks.size
  records : h.records.size ≤ later.records.size
  closures : h.closures.size ≤ later.closures.size

theorem exists_of_mem_modify {α : Type} {items : Array α} {i : Nat} {f : α → α} {item : α}
    (h : item ∈ items.modify i f) : ∃ before ∈ items, item = before ∨ item = f before := by
  obtain ⟨k, hk⟩ := Array.mem_iff_getElem?.mp h
  rw [Array.getElem?_modify] at hk
  split at hk
  · obtain ⟨before, hb, rfl⟩ := Option.map_eq_some_iff.mp hk
    exact ⟨before, Array.mem_of_getElem? hb, .inr rfl⟩
  · exact ⟨item, Array.mem_of_getElem? hk, .inl rfl⟩

theorem Frame.mem_declare {slot : Slot} {binding : Binding} {frame : Frame} {entry : Entry}
    (h : entry ∈ declare slot binding frame) : entry = ⟨slot, binding⟩ ∨ entry ∈ frame := by
  induction frame with
  | nil => exact .inl (List.mem_singleton.mp h)
  | cons other rest ih => grind [declare]

theorem Frame.mem_of_lookup {slot : Slot} {binding : Binding} {frame : Frame}
    (h : frame.lookup slot = some binding) : ∃ entry ∈ frame, entry.binding = binding := by
  induction frame with
  | nil => contradiction
  | cons other rest ih => grind [lookup]

theorem Parents.ExtendsTo.refl (parents : Parents) : parents.ExtendsTo parents := fun _ _ h => h

theorem Parents.extendsTo_push (parents : Parents) (parent : Option FrameId) :
    parents.ExtendsTo (parents.push parent) := by
  intro i other h
  have hi : i < parents.size := (Array.getElem?_eq_some_iff.mp h).1
  rw [Array.getElem?_push, if_neg (Nat.ne_of_lt hi), h]

namespace Scope.Nests

variable {parents later : Parents} {scope : Scope}

theorem mono (hn : scope.Nests parents) (hp : parents.ExtendsTo later) : scope.Nests later := by
  induction hn with
  | outermost h => exact .outermost (hp _ _ h)
  | inside h _ ih => exact .inside (hp _ _ h) ih

theorem eq_cons (hn : scope.Nests parents) : ∃ first rest, scope = first :: rest := by
  cases hn <;> exact ⟨_, _, rfl⟩

theorem lt {id : FrameId} {outer : Scope} (hn : Nests parents (id :: outer)) :
    id.index < parents.size := by
  cases hn with
  | outermost h => exact (Array.getElem?_eq_some_iff.mp h).1
  | inside h => exact (Array.getElem?_eq_some_iff.mp h).1

end Scope.Nests

namespace Heap

variable {parents later : Parents} {h h' h'' : Heap}

namespace Grows

theorem refl (h : Heap) : h.Grows h := ⟨Nat.le_refl _, Nat.le_refl _, Nat.le_refl _⟩

theorem trans (hl : h.Grows h') (hr : h'.Grows h'') : h.Grows h'' :=
  ⟨Nat.le_trans hl.thunks hr.thunks, Nat.le_trans hl.records hr.records,
    Nat.le_trans hl.closures hr.closures⟩

theorem addFrame (h : Heap) : h.Grows h.addFrame.2 :=
  ⟨Nat.le_refl _, Nat.le_refl _, Nat.le_refl _⟩

theorem declare (h : Heap) (frame : FrameId) (slot : Slot) (binding : Binding) :
    h.Grows (h.declare frame slot binding) := ⟨Nat.le_refl _, Nat.le_refl _, Nat.le_refl _⟩

theorem delay (h : Heap) (label : String) (e : Expr) (scope : Scope) :
    h.Grows (h.delay label e scope).2 := by
  refine ⟨?_, Nat.le_refl _, Nat.le_refl _⟩
  simp [Heap.delay]

theorem setState (h : Heap) (id : ThunkId) (state : ThunkState) :
    h.Grows (h.setState id state) := by
  refine ⟨?_, Nat.le_refl _, Nat.le_refl _⟩
  simp [Heap.setState]

theorem addRecord (h : Heap) (fields : List (String × ThunkId)) :
    h.Grows (h.addRecord fields).2 := by
  refine ⟨Nat.le_refl _, ?_, Nat.le_refl _⟩
  simp [Heap.addRecord]

theorem addClosure (h : Heap) (closure : Closure) : h.Grows (h.addClosure closure).2 := by
  refine ⟨Nat.le_refl _, Nat.le_refl _, ?_⟩
  simp [Heap.addClosure]

end Grows

end Heap

theorem Datum.Known.mono {h later : Heap} {d : Datum} (hd : d.Known h) (hg : h.Grows later) :
    d.Known later := by
  cases d with
  | record => exact Nat.lt_of_lt_of_le hd hg.records
  | closure => exact Nat.lt_of_lt_of_le hd hg.closures
  | _ => trivial

theorem Binding.Known.mono {h later : Heap} {binding : Binding} (hb : binding.Known h)
    (hg : h.Grows later) : binding.Known later := by
  cases binding with
  | value d => exact Datum.Known.mono hb hg
  | delayed => exact Nat.lt_of_lt_of_le hb hg.thunks

theorem ThunkState.Known.mono {h later : Heap} {state : ThunkState} (hs : state.Known h)
    (hg : h.Grows later) : state.Known later := by
  cases state with
  | forced d => exact Datum.Known.mono hs hg
  | _ => trivial

namespace Heap

variable {h : Heap}

theorem frame_mem {id : FrameId} {entry : Entry} (he : entry ∈ h.frame id) :
    h.frame id ∈ h.frames := by
  unfold frame at he ⊢
  cases hf : h.frames[id.index]? with
  | none => simp [hf] at he
  | some found => exact Array.mem_of_getElem? hf

theorem thunk_mem {id : ThunkId} (hi : id.index < h.thunks.size) : h.thunk id ∈ h.thunks := by
  simp only [thunk, Array.getElem?_eq_getElem hi, Option.getD_some]
  exact Array.getElem_mem hi

theorem record_mem {id : RecordId} (hi : id.index < h.records.size) : h.record id ∈ h.records := by
  simp only [record, Array.getElem?_eq_getElem hi, Option.getD_some]
  exact Array.getElem_mem hi

theorem closure_mem {id : ClosureId} (hi : id.index < h.closures.size) :
    h.closure id ∈ h.closures := by
  simp only [Heap.closure, Array.getElem?_eq_getElem hi, Option.getD_some]
  exact Array.getElem_mem hi

namespace Sound

variable {parents : Parents}

theorem initial : Heap.initial.Sound #[none] := by
  refine ⟨rfl, ?_, ?_, ?_, ?_, ?_, ?_⟩
  · intro i
    cases i <;> simp
  · intro i outer ho
    cases i <;> simp at ho
  · simp [Heap.initial]
  · simp [Heap.initial]
  · simp [Heap.initial]
  · simp [Heap.initial]

theorem addFrame {outer : FrameId} {rest : Scope} (hs : h.Sound parents)
    (hn : Scope.Nests parents (outer :: rest)) :
    h.addFrame.2.Sound (parents.push (some outer)) ∧
      Scope.Nests (parents.push (some outer)) (h.addFrame.1 :: outer :: rest) := by
  have hp := Parents.extendsTo_push parents (some outer)
  have hpos : 0 < parents.size := Nat.lt_of_le_of_lt (Nat.zero_le _) hn.lt
  refine ⟨⟨?_, ?_, ?_, ?_, ?_, hs.record, ?_⟩, ?_⟩
  · simp [Heap.addFrame, hs.parents_size]
  · intro i
    rw [Array.getElem?_push, ← hs.outermost i]
    split
    · rename_i hi
      simp only [Option.some.injEq, reduceCtorEq, false_iff, hs.outermost]
      omega
    · exact Iff.rfl
  · intro i other ho
    rw [Array.getElem?_push] at ho
    split at ho
    · rename_i hi
      simp only [Option.some.injEq] at ho
      subst ho
      exact hi ▸ hn.lt
    · exact hs.earlier i other ho
  · intro frame hm
    rcases Array.mem_push.mp hm with hm | rfl
    · exact hs.frame frame hm
    · simp
  · intro thunk hm
    obtain ⟨hscope, hstate⟩ := hs.thunk thunk hm
    exact ⟨hscope.mono hp, hstate⟩
  · intro closure hm
    exact (hs.closure closure hm).mono hp
  · refine .inside ?_ (hn.mono hp)
    simp [Heap.addFrame, ← hs.parents_size]

theorem declare {frame : FrameId} {slot : Slot} {binding : Binding} (hs : h.Sound parents)
    (hb : binding.Known h) : (h.declare frame slot binding).Sound parents := by
  refine ⟨?_, hs.outermost, hs.earlier, ?_, hs.thunk, hs.record, hs.closure⟩
  · rw [hs.parents_size, frames_size_declare]
  · intro later hm entry he
    obtain ⟨before, hbefore, rfl | rfl⟩ := exists_of_mem_modify hm
    · exact hs.frame later hbefore entry he
    · rcases Frame.mem_declare he with rfl | he
      · exact hb
      · exact hs.frame before hbefore entry he

theorem grow {later : Heap} (hs : h.Sound parents) (hg : h.Grows later)
    (hf : later.frames = h.frames)
    (ht : ∀ thunk ∈ later.thunks, thunk ∈ h.thunks ∨
      thunk.scope.Nests parents ∧ thunk.state.Known h)
    (hr : ∀ fields ∈ later.records, fields ∈ h.records ∨
      ∀ field ∈ fields, field.2.index < h.thunks.size)
    (hc : ∀ closure ∈ later.closures, closure ∈ h.closures ∨ closure.scope.Nests parents) :
    later.Sound parents := by
  refine ⟨hf ▸ hs.parents_size, hs.outermost, hs.earlier, ?_, ?_, ?_, ?_⟩
  · intro frame hm entry he
    exact (hs.frame frame (hf ▸ hm) entry he).mono hg
  · intro thunk hm
    obtain ⟨hscope, hstate⟩ := (ht thunk hm).elim (hs.thunk thunk) id
    exact ⟨hscope, hstate.mono hg⟩
  · intro fields hm field hfield
    exact Nat.lt_of_lt_of_le ((hr fields hm).elim (hs.record fields) id field hfield) hg.thunks
  · intro closure hm
    exact (hc closure hm).elim (hs.closure closure) id

theorem delay {label : String} {e : Expr} {scope : Scope} (hs : h.Sound parents)
    (hn : scope.Nests parents) : (h.delay label e scope).2.Sound parents := by
  refine hs.grow (.delay h label e scope) rfl ?_ (fun _ => .inl) (fun _ => .inl)
  intro thunk hm
  rcases Array.mem_push.mp hm with hm | rfl
  · exact .inl hm
  · exact .inr ⟨hn, trivial⟩

theorem setState {id : ThunkId} {state : ThunkState} (hs : h.Sound parents)
    (hk : state.Known h) : (h.setState id state).Sound parents := by
  refine hs.grow (.setState h id state) rfl ?_ (fun _ => .inl) (fun _ => .inl)
  intro thunk hm
  have hmodify : thunk ∈ h.thunks.modify id.index fun t => { t with state } := hm
  obtain ⟨before, hb, rfl | rfl⟩ := exists_of_mem_modify hmodify
  · exact .inl hb
  · exact .inr ⟨(hs.thunk before hb).1, hk⟩

theorem addRecord {fields : List (String × ThunkId)} (hs : h.Sound parents)
    (hf : ∀ field ∈ fields, field.2.index < h.thunks.size) :
    (h.addRecord fields).2.Sound parents := by
  refine hs.grow (.addRecord h fields) rfl (fun _ => .inl) ?_ (fun _ => .inl)
  intro other hm
  rcases Array.mem_push.mp hm with hm | rfl
  · exact .inl hm
  · exact .inr hf

theorem addClosure {closure : Closure} (hs : h.Sound parents)
    (hn : closure.scope.Nests parents) : (h.addClosure closure).2.Sound parents := by
  refine hs.grow (.addClosure h closure) rfl (fun _ => .inl) (fun _ => .inl) ?_
  intro other hm
  rcases Array.mem_push.mp hm with hm | rfl
  · exact .inl hm
  · exact .inr hn

end Sound

variable {parents : Parents} {later : Heap} {frame : FrameId} {scope outer : Scope}
  {bindings : List (Slot × Expr)}

theorem Declares.grows (hd : Declares frame scope bindings h later) : h.Grows later := by
  induction hd with
  | nil => exact .refl _
  | delayed hr ih => exact (Grows.delay _ _ _ _).trans ((Grows.declare _ _ _ _).trans ih)
  | function hi hr ih => exact (Grows.addClosure _ _).trans ((Grows.declare _ _ _ _).trans ih)

theorem Declares.sound (hd : Declares frame scope bindings h later) (hs : h.Sound parents)
    (hn : scope.Nests parents) : later.Sound parents := by
  induction hd with
  | nil => exact hs
  | @delayed h later slot label e rest hr ih =>
    apply ih
    apply (hs.delay hn).declare
    simp [Binding.Known, delay]
  | @function h later slot name params body id rest hi hr ih =>
    apply ih
    apply (hs.addClosure hn).declare
    simp [Binding.Known, Datum.Known, addClosure, hi]

theorem Opens.sound (ho : h.Opens frame scope bindings later) (hs : h.Sound parents)
    (hn : outer.Nests parents) (hscope : scope = frame :: outer ∨ scope.Nests parents) :
    ∃ more, parents.ExtendsTo more ∧ h.Grows later ∧ later.Sound more ∧
      Scope.Nests more (frame :: outer) := by
  obtain ⟨rfl, hd⟩ := ho
  obtain ⟨first, rest, rfl⟩ := hn.eq_cons
  obtain ⟨hopened, hinner⟩ := hs.addFrame hn
  have hp := Parents.extendsTo_push parents (some first)
  have hinside : scope.Nests (parents.push (some first)) := by
    rcases hscope with rfl | hscope
    · exact hinner
    · exact hscope.mono hp
  exact ⟨_, hp, (Grows.addFrame h).trans hd.grows, hd.sound hopened hinside, hinner⟩

theorem bindFields_lt (h : Heap) (frame : FrameId) (outer : Scope) (fields : List Field) :
    ∀ field ∈ (h.bindFields frame outer fields).1,
      field.2.index < (h.bindFields frame outer fields).2.thunks.size := by
  induction fields generalizing h with
  | nil => simp [bindFields]
  | cons field rest ih =>
    obtain ⟨name, slot, value⟩ := field
    intro field hm
    rcases List.mem_cons.mp hm with rfl | hm
    · have hg := (declares_bindFields (h.declareDelayed frame slot name value (frame :: outer)).2
        frame outer rest).grows
      refine Nat.lt_of_lt_of_le ?_ hg.thunks
      simp [declareDelayed, delay, declare]
    · exact ih _ field hm

theorem openRecord_sound {fields : List Field} {id : RecordId}
    (ho : h.openRecord scope fields = (id, later)) (hs : h.Sound parents)
    (hn : scope.Nests parents) :
    ∃ more, parents.ExtendsTo more ∧ h.Grows later ∧ later.Sound more ∧
      id.index < later.records.size := by
  have hopens : h.Opens h.addFrame.1 (h.addFrame.1 :: scope) (Field.bindings fields)
      (h.addFrame.2.bindFields h.addFrame.1 scope fields).2 := ⟨rfl, declares_bindFields _ _ _ _⟩
  have hlt := bindFields_lt h.addFrame.2 h.addFrame.1 scope fields
  obtain ⟨more, hp, hg, hmade, _⟩ := hopens.sound hs hn (.inl rfl)
  cases ho
  refine ⟨more, hp, hg.trans (Grows.addRecord _ _), hmade.addRecord hlt, ?_⟩
  simp

theorem Sound.lookup {slot : Slot} {binding : Binding} (hs : h.Sound parents)
    (hl : h.lookup slot scope = some binding) : binding.Known h := by
  induction scope with
  | nil => contradiction
  | cons id outer ih =>
    rw [Heap.lookup] at hl
    split at hl
    · rename_i found hf
      cases hl
      obtain ⟨entry, he, rfl⟩ := Frame.mem_of_lookup hf
      exact hs.frame _ (frame_mem he) entry he
    · exact ih hl

def search (h : Heap) (parents : Parents) (slot : Slot) : Nat → FrameId → Option (Option Binding)
  | 0, _ => none
  | steps + 1, id =>
    match (h.frame id).lookup slot with
    | some binding => some (some binding)
    | none =>
      match parents[id.index]? with
      | some (some outer) => h.search parents slot steps outer
      | _ => some none

/-- Frames lie in earlier ones, so a search is over before it has seen more frames than there are
up to its first. It sees those of the scope. -/
theorem Sound.search_eq (hs : h.Sound parents) {slot : Slot} {id : FrameId} {steps : Nat}
    (hn : Scope.Nests parents (id :: outer)) (hsteps : id.index < steps) :
    h.search parents slot steps id = some (h.lookup slot (id :: outer)) := by
  induction outer generalizing id steps with
  | nil =>
    obtain ⟨steps, rfl⟩ := Nat.exists_eq_add_one_of_ne_zero (Nat.ne_zero_of_lt hsteps)
    cases hn with
    | outermost hp =>
      cases hf : Frame.lookup slot (h.frame id) <;> simp only [search, Heap.lookup, hf, hp]
  | cons next rest ih =>
    obtain ⟨steps, rfl⟩ := Nat.exists_eq_add_one_of_ne_zero (Nat.ne_zero_of_lt hsteps)
    cases hn with
    | inside hp hr =>
      have hlt := hs.earlier _ _ hp
      cases hf : Frame.lookup slot (h.frame id) with
      | some binding => simp only [search, Heap.lookup, hf]
      | none =>
        simp only [search, Heap.lookup, hf, hp]
        exact ih hr (by omega)

theorem Sound.forced {id : ThunkId} {d : Datum} (hs : h.Sound parents)
    (hi : id.index < h.thunks.size) (hf : (h.thunk id).state = .forced d) : d.Known h := by
  have hk := (hs.thunk _ (thunk_mem hi)).2
  rwa [hf] at hk

theorem Sound.field {id : RecordId} {field : String × ThunkId} (hs : h.Sound parents)
    (hi : id.index < h.records.size) (hf : field ∈ h.record id) :
    field.2.index < h.thunks.size := hs.record _ (record_mem hi) field hf

end Heap

end Inquiry
