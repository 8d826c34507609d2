import Inquiry.Proofs.Likeness.Heap
set_option autoImplicit false

/-!
What a block leaves on a heap, whatever the order of its declarations: each slot is bound to what
was made for its last declaration. So blocks that agree on what counts leave heaps alike.
-/

namespace Inquiry

/-- What stands in frames of two heaps corresponds too, slot by slot. -/
def Likeness.addSlots (l : Likeness) (named : Nat → Prop) (frame frame' : Frame) : Likeness where
  thunks id id' := l.thunks id id' ∨ ∃ slot, named slot.id ∧
    frame.lookup slot = some (.delayed id) ∧ frame'.lookup slot = some (.delayed id')
  closures id id' := l.closures id id' ∨ ∃ slot, named slot.id ∧
    frame.lookup slot = some (.value (.closure id)) ∧
      frame'.lookup slot = some (.value (.closure id'))

theorem Likeness.extends_addSlots (l : Likeness) (named : Nat → Prop) (frame frame' : Frame) :
    l.Extends (l.addSlots named frame frame') := ⟨.inl, .inl⟩

namespace Frame

theorem lookup_congr {slot other : Slot} (h : slot.id = other.id) (frame : Frame) :
    frame.lookup slot = frame.lookup other := by
  induction frame with
  | nil => rfl
  | cons entry rest ih => simp only [lookup, h, ih]

end Frame

namespace Heap

/-- What was made for a declaration between the two heaps: a closure for a function, for anything
else a delayed expression. -/
inductive Makes (h later : Heap) (scope : Scope) : Slot × Expr → Binding → Prop where
  | delayed {slot : Slot} {e : Expr} {id : ThunkId} (hf : e.isFunction = false)
      (hi : h.thunks.size ≤ id.index) (hlt : id.index < later.thunks.size)
      (ht : later.thunk id = ⟨slot.name, e, scope, .unforced⟩) :
      Makes h later scope (slot, e) (.delayed id)
  | function {slot : Slot} {name : Option String} {params : List Slot} {body : Expr}
      {id : ClosureId} (hi : h.closures.size ≤ id.index) (hlt : id.index < later.closures.size)
      (hc : later.closure id = ⟨name, params, body, scope⟩) :
      Makes h later scope (slot, .function name params body) (.value (.closure id))

structure Adds (frame : FrameId) (h later : Heap) : Prop where
  frames_size : later.frames.size = h.frames.size
  records : later.records = h.records
  thunks_le : h.thunks.size ≤ later.thunks.size
  closures_le : h.closures.size ≤ later.closures.size
  thunk : ∀ id, id.index < h.thunks.size → later.thunk id = h.thunk id
  closure : ∀ id, id.index < h.closures.size → later.closure id = h.closure id
  other : ∀ id, id ≠ frame → later.frame id = h.frame id

/-- The frame is given what is made for the last declaration of each slot. -/
structure Populates (frame : FrameId) (scope : Scope) (body : List Stmt) (h later : Heap) : Prop
    extends Adds frame h later where
  unbound : ∀ slot, Stmt.declared? slot.id body = none →
    (later.frame frame).lookup slot = (h.frame frame).lookup slot
  bound : ∀ slot declaration, Stmt.declared? slot.id body = some declaration →
    ∃ binding, (later.frame frame).lookup slot = some binding ∧
      Makes h later scope declaration binding
  distinct : ∀ slot other declaration declaration' id,
    Stmt.declared? slot.id body = some declaration →
    Stmt.declared? other.id body = some declaration' →
    (later.frame frame).lookup slot = some (.delayed id) →
    (later.frame frame).lookup other = some (.delayed id) → slot.id = other.id

variable {h mid later : Heap} {frame : FrameId} {scope : Scope} {body : List Stmt}

theorem Adds.refl (frame : FrameId) (h : Heap) : Adds frame h h :=
  ⟨rfl, rfl, Nat.le_refl _, Nat.le_refl _, fun _ _ => rfl, fun _ _ => rfl, fun _ _ => rfl⟩

theorem Adds.trans (hl : Adds frame h mid) (hr : Adds frame mid later) : Adds frame h later where
  frames_size := hr.frames_size.trans hl.frames_size
  records := hr.records.trans hl.records
  thunks_le := Nat.le_trans hl.thunks_le hr.thunks_le
  closures_le := Nat.le_trans hl.closures_le hr.closures_le
  thunk id hi := (hr.thunk id (Nat.lt_of_lt_of_le hi hl.thunks_le)).trans (hl.thunk id hi)
  closure id hi := (hr.closure id (Nat.lt_of_lt_of_le hi hl.closures_le)).trans (hl.closure id hi)
  other id hi := (hr.other id hi).trans (hl.other id hi)

theorem Makes.before {declaration : Slot × Expr} {binding : Binding} (hl : Adds frame h mid)
    (hm : Makes mid later scope declaration binding) : Makes h later scope declaration binding := by
  cases hm with
  | delayed hf hi hlt ht => exact .delayed hf (Nat.le_trans hl.thunks_le hi) hlt ht
  | function hi hlt hc => exact .function (Nat.le_trans hl.closures_le hi) hlt hc

theorem Makes.after {declaration : Slot × Expr} {binding : Binding}
    (hm : Makes h mid scope declaration binding) (hr : Adds frame mid later) :
    Makes h later scope declaration binding := by
  cases hm with
  | delayed hf hi hlt ht =>
    exact .delayed hf hi (Nat.lt_of_lt_of_le hlt hr.thunks_le) ((hr.thunk _ hlt).trans ht)
  | function hi hlt hc =>
    exact .function hi (Nat.lt_of_lt_of_le hlt hr.closures_le) ((hr.closure _ hlt).trans hc)

/-- One declaration gives its slot what was made for it, and leaves the other slots alone. -/
structure Declared (frame : FrameId) (scope : Scope) (slot : Slot) (value : Expr) (h later : Heap) :
    Prop extends Adds frame h later where
  unbound : ∀ other : Slot, slot.id ≠ other.id →
    (later.frame frame).lookup other = (h.frame frame).lookup other
  bound : ∃ binding, (∀ other : Slot, slot.id = other.id →
    (later.frame frame).lookup other = some binding) ∧ Makes h later scope (slot, value) binding

theorem lookup_declare {frame : FrameId} (hf : frame.index < h.frames.size) (slot other : Slot)
    (binding : Binding) : ((h.declare frame slot binding).frame frame).lookup other =
      if other.id = slot.id then some binding else (h.frame frame).lookup other := by
  rw [frame_declare, if_pos ⟨rfl, hf⟩, Frame.lookup_declare]

theorem declared_delayed (hf : frame.index < h.frames.size) (slot : Slot) {value : Expr}
    (hv : value.isFunction = false) (scope : Scope) :
    Declared frame scope slot value h
      (h.declareDelayed frame slot slot.name value scope).2 where
  frames_size := frames_size_declare
  records := rfl
  thunks_le := by simp [declareDelayed, declare, delay]
  closures_le := Nat.le_refl _
  thunk id hi := by
    show (h.delay slot.name value scope).2.thunk id = h.thunk id
    rw [thunk_delay, if_neg (Nat.ne_of_lt hi)]
  closure _ _ := rfl
  other id hi := by
    show ((h.delay slot.name value scope).2.declare frame slot _).frame id = h.frame id
    rw [frame_declare, if_neg (by simp [hi])]
    rfl
  unbound other ho := (lookup_declare hf slot other _).trans (if_neg (Ne.symm ho))
  bound := by
    refine ⟨.delayed ⟨h.thunks.size⟩, fun other ho =>
      (lookup_declare hf slot other _).trans (if_pos ho.symm), ?_⟩
    refine .delayed hv (Nat.le_refl _) (by simp [declareDelayed, declare, delay]) ?_
    show (h.delay slot.name value scope).2.thunk ⟨h.thunks.size⟩ = _
    rw [thunk_delay, if_pos rfl]

theorem declared_function (hf : frame.index < h.frames.size) (slot : Slot) (name : Option String)
    (params : List Slot) (e : Expr) (scope : Scope) :
    Declared frame scope slot (.function name params e) h
      ((h.addClosure ⟨name, params, e, scope⟩).2.declare frame slot
        (.value (.closure (h.addClosure ⟨name, params, e, scope⟩).1))) where
  frames_size := frames_size_declare
  records := rfl
  thunks_le := Nat.le_refl _
  closures_le := by simp [declare, addClosure]
  thunk _ _ := rfl
  closure id hi := by
    show (h.addClosure ⟨name, params, e, scope⟩).2.closure id = h.closure id
    rw [closure_push, if_neg (Nat.ne_of_lt hi)]
  other id hi := by
    rw [frame_declare, if_neg (by simp [hi])]
    rfl
  unbound other ho := (lookup_declare hf slot other _).trans (if_neg (Ne.symm ho))
  bound := by
    refine ⟨_, fun other ho => (lookup_declare hf slot other _).trans (if_pos ho.symm), ?_⟩
    refine .function (Nat.le_refl _) (by simp [declare, addClosure]) ?_
    show (h.addClosure ⟨name, params, e, scope⟩).2.closure ⟨h.closures.size⟩ = _
    rw [closure_push, if_pos rfl]

theorem Populates.nil : Populates frame scope [] h h where
  toAdds := .refl frame h
  unbound _ _ := rfl
  bound _ _ hd := nomatch hd
  distinct _ _ _ _ _ hd := nomatch hd

theorem Populates.cons {slot : Slot} {value : Expr} (hl : Declared frame scope slot value h mid)
    (hr : Populates frame scope body mid later) :
    Populates frame scope (.bind slot value :: body) h later := by
  obtain ⟨binding, hbinding, hmakes⟩ := hl.bound
  -- A slot that only the first statement declares is bound to what that made.
  have hfirst {other : Slot} {declaration : Slot × Expr}
      (hn : Stmt.declared? other.id body = none)
      (hd : Stmt.declared? other.id (.bind slot value :: body) = some declaration) :
      slot.id = other.id ∧ declaration = (slot, value) ∧
        (later.frame frame).lookup other = some binding := by
    rw [Stmt.declared?, hn, Option.none_or] at hd
    split at hd
    · rename_i hi
      exact ⟨hi, (Option.some.inj hd).symm, (hr.unbound other hn).trans (hbinding other hi)⟩
    · cases hd
  have hlater {other : Slot} {declaration found : Slot × Expr}
      (hf : Stmt.declared? other.id body = some found)
      (hd : Stmt.declared? other.id (.bind slot value :: body) = some declaration) :
      found = declaration := by
    rw [Stmt.declared?, hf, Option.some_or] at hd
    exact Option.some.inj hd
  refine ⟨hl.toAdds.trans hr.toAdds, fun other hn => ?_, fun other declaration hd => ?_,
    fun other other' declaration declaration' id hd hd' hlook hlook' => ?_⟩
  · obtain ⟨hrest, hi⟩ := Option.or_eq_none_iff.mp hn
    split at hi
    · cases hi
    · rename_i hne
      exact (hr.unbound other hrest).trans (hl.unbound other hne)
  · cases hf : Stmt.declared? other.id body with
    | none =>
      obtain ⟨_, rfl, hlook⟩ := hfirst hf hd
      exact ⟨binding, hlook, hmakes.after hr.toAdds⟩
    | some found =>
      obtain rfl := hlater hf hd
      obtain ⟨b, hlook, hb⟩ := hr.bound other found hf
      exact ⟨b, hlook, hb.before hl.toAdds⟩
  · -- What the rest made is newer than what the first statement made.
    have hnew {newer older : Slot} {found declaration : Slot × Expr}
        (hf : Stmt.declared? newer.id body = some found)
        (hn : Stmt.declared? older.id body = none)
        (hd : Stmt.declared? older.id (.bind slot value :: body) = some declaration)
        (hlook : (later.frame frame).lookup newer = some (.delayed id))
        (hlook' : (later.frame frame).lookup older = some (.delayed id)) : False := by
      obtain ⟨b, hb, hm⟩ := hr.bound newer found hf
      cases hb.symm.trans hlook
      obtain ⟨_, _, hold⟩ := hfirst hn hd
      cases hold.symm.trans hlook'
      cases hmakes with
      | delayed _ _ hlt _ =>
        cases hm with
        | delayed _ hi _ _ => exact Nat.not_le_of_lt hlt hi
    cases hf : Stmt.declared? other.id body with
    | none =>
      cases hf' : Stmt.declared? other'.id body with
      | none => exact (hfirst hf hd).1.symm.trans (hfirst hf' hd').1
      | some found' => exact (hnew hf' hf hd hlook' hlook).elim
    | some found =>
      cases hf' : Stmt.declared? other'.id body with
      | none => exact (hnew hf hf' hd' hlook hlook').elim
      | some found' => exact hr.distinct other other' found found' id hf hf' hlook hlook'

theorem populates_bindAll (hf : frame.index < h.frames.size) (outer : Scope) (body : List Stmt) :
    Populates frame (frame :: outer) body h (h.bindAll frame outer body) := by
  induction body generalizing h with
  | nil => exact .nil
  | cons stmt rest ih =>
    cases stmt with
    | expr e =>
      have hrest := ih hf
      exact ⟨hrest.toAdds, hrest.unbound, hrest.bound, hrest.distinct⟩
    | bind slot value =>
      cases hv : value.isFunction with
      | false =>
        rw [bindAll_of_delayed hv]
        have hfirst := declared_delayed hf slot hv (frame :: outer)
        exact .cons hfirst (ih (hfirst.frames_size.symm ▸ hf))
      | true =>
        obtain ⟨name, params, e, rfl⟩ := Expr.isFunction_iff.mp hv
        have hfirst := declared_function hf slot name params e (frame :: outer)
        exact .cons hfirst (ih (hfirst.frames_size.symm ▸ hf))

theorem Populates.declared (hp : Populates frame scope body h later) (he : h.frame frame = [])
    {slot : Slot} {binding : Binding} (hb : (later.frame frame).lookup slot = some binding) :
    ∃ declaration, Stmt.declared? slot.id body = some declaration := by
  cases hd : Stmt.declared? slot.id body with
  | some declaration => exact ⟨declaration, rfl⟩
  | none =>
    rw [hp.unbound slot hd, he] at hb
    cases hb

theorem Populates.unique (hp : Populates frame scope body h later) (he : h.frame frame = [])
    {slot other : Slot} {id : ThunkId}
    (hs : (later.frame frame).lookup slot = some (.delayed id))
    (ho : (later.frame frame).lookup other = some (.delayed id)) : slot.id = other.id := by
  obtain ⟨_, hd⟩ := hp.declared he hs
  obtain ⟨_, hd'⟩ := hp.declared he ho
  exact hp.distinct slot other _ _ id hd hd' hs ho

/-- What a slot is bound to in two heaps was made for declarations that are alike. -/
inductive BothMake (named : Nat → Prop) (h later h' later' : Heap) :
    Option Binding → Option Binding → Prop where
  | none : BothMake named h later h' later' none none
  | delayed {id id' : ThunkId} (hi : h.thunks.size ≤ id.index) (hlt : id.index < later.thunks.size)
      (hi' : h'.thunks.size ≤ id'.index) (hlt' : id'.index < later'.thunks.size)
      (ht : ∀ l, (later.thunk id).Alike named l (later'.thunk id')) :
      BothMake named h later h' later' (some (.delayed id)) (some (.delayed id'))
  | function {id id' : ClosureId} (hlt : id.index < later.closures.size)
      (hlt' : id'.index < later'.closures.size)
      (hc : (later.closure id).Alike named (later'.closure id')) :
      BothMake named h later h' later' (some (.value (.closure id)))
        (some (.value (.closure id')))

variable {named : Nat → Prop} {l : Likeness} {h' later' : Heap} {body' : List Stmt}

theorem Makes.both {slot : Slot} {e e' : Expr} {b b' : Binding} (he : e.Alike named e')
    (hm : Makes h later scope (slot, e) b) (hm' : Makes h' later' scope (slot, e') b') :
    BothMake named h later h' later' (some b) (some b') := by
  cases hm with
  | delayed hf hi hlt ht =>
    cases hm' with
    | delayed hf' hi' hlt' ht' =>
      refine .delayed hi hlt hi' hlt' fun l => ?_
      rw [ht, ht']
      exact ⟨rfl, he, rfl, .unforced⟩
    | function => cases hf.symm.trans he.isFunction_eq
  | function hi hlt hc =>
    cases he with
    | function _ _ hbody =>
      cases hm' with
      | delayed hf' => cases hf'
      | function hi' hlt' hc' =>
        refine .function hlt hlt' ?_
        rw [hc, hc']
        exact ⟨rfl, rfl, hbody, rfl⟩

theorem Populates.bothMake (hp : Populates frame scope body h later)
    (hp' : Populates frame scope body' h' later') (he : h.frame frame = [])
    (he' : h'.frame frame = []) {slot : Slot}
    (hs : (Stmt.declared? slot.id body).map Prod.fst = (Stmt.declared? slot.id body').map Prod.fst)
    (hv : Option.Rel (Expr.Alike named) ((Stmt.declared? slot.id body).map Prod.snd)
      ((Stmt.declared? slot.id body').map Prod.snd)) :
    BothMake named h later h' later' ((later.frame frame).lookup slot)
      ((later'.frame frame).lookup slot) := by
  cases hd : Stmt.declared? slot.id body with
  | none =>
    rw [hd] at hs
    have hd' : Stmt.declared? slot.id body' = none := by simpa using hs.symm
    rw [hp.unbound slot hd, hp'.unbound slot hd', he, he']
    exact .none
  | some declaration =>
    obtain ⟨other, e⟩ := declaration
    rw [hd] at hs hv
    obtain ⟨⟨_, e'⟩, hd', rfl⟩ := Option.map_eq_some_iff.mp hs.symm
    rw [hd'] at hv
    cases hv with
    | some halike =>
      obtain ⟨b, hb, hm⟩ := hp.bound slot _ hd
      obtain ⟨b', hb', hm'⟩ := hp'.bound slot _ hd'
      rw [hb, hb']
      exact hm.both halike hm'

section

variable (hp : Populates frame scope body h later) (hp' : Populates frame scope body' h' later')
  (he : h.frame frame = []) (he' : h'.frame frame = [])
  (hs : ∀ id, named id →
    (Stmt.declared? id body).map Prod.fst = (Stmt.declared? id body').map Prod.fst)
  (hv : ∀ id, named id → Option.Rel (Expr.Alike named) ((Stmt.declared? id body).map Prod.snd)
    ((Stmt.declared? id body').map Prod.snd))
include hp hp' he he' hs hv

theorem Populates.delayed_alike {slot : Slot} (hn : named slot.id) {id id' : ThunkId}
    (hb : (later.frame frame).lookup slot = some (.delayed id))
    (hb' : (later'.frame frame).lookup slot = some (.delayed id')) :
    (h.thunks.size ≤ id.index ∧ id.index < later.thunks.size) ∧
      (h'.thunks.size ≤ id'.index ∧ id'.index < later'.thunks.size) ∧
      ∀ l, (later.thunk id).Alike named l (later'.thunk id') := by
  have hboth := hp.bothMake hp' he he' (hs _ hn) (hv _ hn)
  rw [hb, hb'] at hboth
  cases hboth with
  | delayed hi hlt hi' hlt' ht => exact ⟨⟨hi, hlt⟩, ⟨hi', hlt'⟩, ht⟩

theorem Populates.closure_alike {slot : Slot} (hn : named slot.id) {id id' : ClosureId}
    (hb : (later.frame frame).lookup slot = some (.value (.closure id)))
    (hb' : (later'.frame frame).lookup slot = some (.value (.closure id'))) :
    (id.index < later.closures.size ∧ id'.index < later'.closures.size) ∧
      (later.closure id).Alike named (later'.closure id') := by
  have hboth := hp.bothMake hp' he he' (hs _ hn) (hv _ hn)
  rw [hb, hb'] at hboth
  cases hboth with
  | function hlt hlt' hc => exact ⟨⟨hlt, hlt'⟩, hc⟩

/-- Blocks that agree on what counts leave heaps alike. -/
theorem Alike.populate (ha : h.Alike named l h') :
    later.Alike named (l.addSlots named (later.frame frame) (later'.frame frame)) later' := by
  have hl := l.extends_addSlots named (later.frame frame) (later'.frame frame)
  have hdelayed {slot : Slot} {id id' : ThunkId} (hn : named slot.id)
      (hb : (later.frame frame).lookup slot = some (.delayed id))
      (hb' : (later'.frame frame).lookup slot = some (.delayed id')) :=
    hp.delayed_alike hp' he he' hs hv hn hb hb'
  have hclosure {slot : Slot} {id id' : ClosureId} (hn : named slot.id)
      (hb : (later.frame frame).lookup slot = some (.value (.closure id)))
      (hb' : (later'.frame frame).lookup slot = some (.value (.closure id'))) :=
    hp.closure_alike hp' he he' hs hv hn hb hb'
  exact {
    frames_size := by rw [hp.frames_size, hp'.frames_size, ha.frames_size]
    records_size := by rw [hp.records, hp'.records, ha.records_size]
    thunk_lt := by
      rintro id id' (ht | ⟨slot, hn, hb, hb'⟩)
      · obtain ⟨hlt, hlt'⟩ := ha.thunk_lt ht
        exact ⟨Nat.lt_of_lt_of_le hlt hp.thunks_le, Nat.lt_of_lt_of_le hlt' hp'.thunks_le⟩
      · obtain ⟨hid, hid', _⟩ := hdelayed hn hb hb'
        exact ⟨hid.2, hid'.2⟩
    closure_lt := by
      rintro id id' (hc | ⟨slot, hn, hb, hb'⟩)
      · obtain ⟨hlt, hlt'⟩ := ha.closure_lt hc
        exact ⟨Nat.lt_of_lt_of_le hlt hp.closures_le, Nat.lt_of_lt_of_le hlt' hp'.closures_le⟩
      · exact (hclosure hn hb hb').1
    left_unique := by
      -- What corresponded before is older than what the frame is given.
      rintro id id' other (ht | ⟨slot, hn, hb, hb'⟩) (ho | ⟨slot', hn', hc, hc'⟩)
      · exact ha.left_unique ht ho
      · exact absurd (ha.thunk_lt ht).1 (Nat.not_lt_of_le (hdelayed hn' hc hc').1.1)
      · exact absurd (ha.thunk_lt ho).1 (Nat.not_lt_of_le (hdelayed hn hb hb').1.1)
      · rw [Frame.lookup_congr (hp.unique he hb hc)] at hb'
        cases hb'.symm.trans hc'
        rfl
    right_unique := by
      rintro id id' other (ht | ⟨slot, hn, hb, hb'⟩) (ho | ⟨slot', hn', hc, hc'⟩)
      · exact ha.right_unique ht ho
      · exact absurd (ha.thunk_lt ht).2 (Nat.not_lt_of_le (hdelayed hn' hc hc').2.1.1)
      · exact absurd (ha.thunk_lt ho).2 (Nat.not_lt_of_le (hdelayed hn hb hb').2.1.1)
      · rw [Frame.lookup_congr (hp'.unique he' hb' hc')] at hb
        cases hb.symm.trans hc
        rfl
    thunk := by
      rintro id id' (ht | ⟨slot, hn, hb, hb'⟩)
      · obtain ⟨hlt, hlt'⟩ := ha.thunk_lt ht
        rw [hp.thunk id hlt, hp'.thunk id' hlt']
        exact (ha.thunk ht).mono hl
      · exact (hdelayed hn hb hb').2.2 _
    closure := by
      rintro id id' (hc | ⟨slot, hn, hb, hb'⟩)
      · obtain ⟨hlt, hlt'⟩ := ha.closure_lt hc
        rw [hp.closure id hlt, hp'.closure id' hlt']
        exact ha.closure hc
      · exact (hclosure hn hb hb').2
    record := by
      intro id
      have hrecord := (ha.record id).mono hl
      rwa [Heap.record, Heap.record, ← hp.records, ← hp'.records] at hrecord
    frame := by
      intro id slot hn
      by_cases hid : id = frame
      · subst hid
        have hboth := hp.bothMake hp' he he' (hs _ hn) (hv _ hn)
        generalize hb : (later.frame id).lookup slot = b at hboth
        generalize hb' : (later'.frame id).lookup slot = b' at hboth
        cases hboth with
        | none => exact .none
        | delayed => exact .some (.delayed (.inr ⟨slot, hn, hb, hb'⟩))
        | function => exact .some (.value (.closure (.inr ⟨slot, hn, hb, hb'⟩)))
      · rw [hp.other id hid, hp'.other id hid]
        exact Option.rel_binding_mono hl (ha.frame id slot hn) }

end

end Heap

end Inquiry
