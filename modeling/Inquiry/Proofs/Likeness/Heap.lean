import Inquiry.Proofs.Heap.Settling
import Inquiry.Proofs.Likeness.Expr
set_option autoImplicit false

/-!
Heaps of two passes that differ in what they declare. Frames and records have the same numbers in
both. Delayed expressions and closures do not, so it is written down which of them correspond; what
one pass alone declares corresponds to nothing.
-/

namespace Inquiry

/-- Which delayed expressions and which closures of two heaps correspond. -/
structure Likeness where
  thunks : ThunkId → ThunkId → Prop
  closures : ClosureId → ClosureId → Prop

namespace Likeness

def none : Likeness := ⟨fun _ _ => False, fun _ _ => False⟩

structure Extends (l more : Likeness) : Prop where
  thunks : ∀ {id id'}, l.thunks id id' → more.thunks id id'
  closures : ∀ {id id'}, l.closures id id' → more.closures id id'

theorem Extends.refl (l : Likeness) : l.Extends l := ⟨id, id⟩

theorem Extends.trans {l more most : Likeness} (h : l.Extends more) (h' : more.Extends most) :
    l.Extends most := ⟨h'.thunks ∘ h.thunks, h'.closures ∘ h.closures⟩

def addThunk (l : Likeness) (id id' : ThunkId) : Likeness :=
  { l with thunks := fun a b => l.thunks a b ∨ a = id ∧ b = id' }

def addClosure (l : Likeness) (id id' : ClosureId) : Likeness :=
  { l with closures := fun a b => l.closures a b ∨ a = id ∧ b = id' }

theorem extends_addThunk (l : Likeness) (id id' : ThunkId) : l.Extends (l.addThunk id id') :=
  ⟨.inl, fun h => h⟩

theorem extends_addClosure (l : Likeness) (id id' : ClosureId) : l.Extends (l.addClosure id id') :=
  ⟨fun h => h, .inl⟩

end Likeness

inductive Datum.Alike (l : Likeness) : Datum → Datum → Prop where
  | number (n : Int64) : Alike l (.number n) (.number n)
  | boolean (b : Bool) : Alike l (.boolean b) (.boolean b)
  | record (id : RecordId) : Alike l (.record id) (.record id)
  | closure {id id' : ClosureId} (h : l.closures id id') : Alike l (.closure id) (.closure id')
  | undefined : Alike l .undefined .undefined

inductive Binding.Alike (l : Likeness) : Binding → Binding → Prop where
  | value {d d' : Datum} (h : d.Alike l d') : Alike l (.value d) (.value d')
  | delayed {id id' : ThunkId} (h : l.thunks id id') : Alike l (.delayed id) (.delayed id')

inductive ThunkState.Alike (l : Likeness) : ThunkState → ThunkState → Prop where
  | unforced : Alike l .unforced .unforced
  | forcing : Alike l .forcing .forcing
  | forced {d d' : Datum} (h : d.Alike l d') : Alike l (.forced d) (.forced d')

structure Thunk.Alike (named : Nat → Prop) (l : Likeness) (t t' : Thunk) : Prop where
  label : t.label = t'.label
  expr : t.expr.Alike named t'.expr
  scope : t.scope = t'.scope
  state : t.state.Alike l t'.state

structure Closure.Alike (named : Nat → Prop) (c c' : Closure) : Prop where
  name : c.name = c'.name
  params : c.params = c'.params
  body : c.body.Alike named c'.body
  scope : c.scope = c'.scope

def FieldsAlike (l : Likeness) : List (String × ThunkId) → List (String × ThunkId) → Prop :=
  List.Forall₂ fun field field' => field.1 = field'.1 ∧ l.thunks field.2 field'.2

/-- All that corresponds is alike, and so is what the slots that are named are bound to. -/
structure Heap.Alike (named : Nat → Prop) (l : Likeness) (h h' : Heap) : Prop where
  frames_size : h.frames.size = h'.frames.size
  records_size : h.records.size = h'.records.size
  thunk_lt : ∀ {id id'}, l.thunks id id' → id.index < h.thunks.size ∧ id'.index < h'.thunks.size
  closure_lt : ∀ {id id'}, l.closures id id' →
    id.index < h.closures.size ∧ id'.index < h'.closures.size
  left_unique : ∀ {id id' other}, l.thunks id id' → l.thunks id other → id' = other
  right_unique : ∀ {id id' other}, l.thunks id id' → l.thunks other id' → id = other
  thunk : ∀ {id id'}, l.thunks id id' → (h.thunk id).Alike named l (h'.thunk id')
  closure : ∀ {id id'}, l.closures id id' → (h.closure id).Alike named (h'.closure id')
  record : ∀ id, FieldsAlike l (h.record id) (h'.record id)
  frame : ∀ id slot, named slot.id →
    Option.Rel (Binding.Alike l) ((h.frame id).lookup slot) ((h'.frame id).lookup slot)

section

variable {l more : Likeness} (hl : l.Extends more)
include hl

theorem Datum.Alike.mono {d d' : Datum} (h : d.Alike l d') : d.Alike more d' := by
  cases h with
  | number n => exact .number n
  | boolean b => exact .boolean b
  | record id => exact .record id
  | closure h => exact .closure (hl.closures h)
  | undefined => exact .undefined

theorem Binding.Alike.mono {b b' : Binding} (h : b.Alike l b') : b.Alike more b' := by
  cases h with
  | value h => exact .value (h.mono hl)
  | delayed h => exact .delayed (hl.thunks h)

theorem ThunkState.Alike.mono {s s' : ThunkState} (h : s.Alike l s') : s.Alike more s' := by
  cases h with
  | unforced => exact .unforced
  | forcing => exact .forcing
  | forced h => exact .forced (h.mono hl)

theorem Thunk.Alike.mono {named : Nat → Prop} {t t' : Thunk} (h : t.Alike named l t') :
    t.Alike named more t' := ⟨h.label, h.expr, h.scope, h.state.mono hl⟩

theorem FieldsAlike.mono {fields fields' : List (String × ThunkId)}
    (h : FieldsAlike l fields fields') : FieldsAlike more fields fields' :=
  h.imp fun _ _ hf => ⟨hf.1, hl.thunks hf.2⟩

theorem Option.rel_binding_mono {b b' : Option Binding} (h : Option.Rel (Binding.Alike l) b b') :
    Option.Rel (Binding.Alike more) b b' := by
  cases h with
  | none => exact .none
  | some h => exact .some (h.mono hl)

end

theorem Datum.Alike.isAmong_eq {l : Likeness} {d d' : Datum} (h : d.Alike l d')
    (opened : List RecordId) : d.isAmong opened = d'.isAmong opened := by cases h <;> rfl

theorem FieldsAlike.names_eq {l : Likeness} {fields fields' : List (String × ThunkId)}
    (h : FieldsAlike l fields fields') : fields.map Prod.fst = fields'.map Prod.fst := by
  induction h with
  | nil => rfl
  | cons hf _ ih => rw [List.map_cons, List.map_cons, hf.1, ih]

namespace Heap.Alike

variable {named : Nat → Prop} {l : Likeness} {h h' : Heap} (ha : h.Alike named l h')
include ha

section Reading

theorem lookup {slot : Slot} (hn : named slot.id) (scope : Scope) :
    Option.Rel (Binding.Alike l) (h.lookup slot scope) (h'.lookup slot scope) := by
  induction scope with
  | nil => exact .none
  | cons id outer ih =>
    have hframe := ha.frame id slot hn
    simp only [Heap.lookup]
    generalize (h.frame id).lookup slot = b at hframe
    generalize (h'.frame id).lookup slot = b' at hframe
    cases hframe with
    | none => exact ih
    | some hb => exact .some hb

theorem fieldNames (id : RecordId) : h.fieldNames id = h'.fieldNames id :=
  (ha.record id).names_eq

theorem summary {d d' : Datum} (hd : d.Alike l d') : h.summary d = h'.summary d' := by
  cases hd with
  | record id => exact congrArg Summary.record (ha.fieldNames id)
  | closure hc => exact congrArg Summary.function (ha.closure hc).name
  | _ => rfl

theorem field? (id : RecordId) (name : String) :
    Option.Rel l.thunks (h.field? id name) (h'.field? id name) := by
  have hrecord := ha.record id
  unfold Heap.field?
  generalize h.record id = fields at hrecord
  generalize h'.record id = fields' at hrecord
  induction hrecord with
  | nil => exact .none
  | @cons field field' _ _ hf _ ih =>
    simp only [List.find?_cons, hf.1]
    cases field'.1 == name with
    | true => exact .some hf.2
    | false => exact ih

theorem record_getElem? (id : RecordId) (i : Nat) :
    Option.Rel (fun field field' => field.1 = field'.1 ∧ l.thunks field.2 field'.2)
      (h.record id)[i]? (h'.record id)[i]? := by
  have hrecord := ha.record id
  generalize h.record id = fields at hrecord
  generalize h'.record id = fields' at hrecord
  induction hrecord generalizing i with
  | nil => exact .none
  | cons hf _ ih =>
    cases i with
    | zero => exact .some hf
    | succ i => exact ih i

theorem forced? {id id' : ThunkId} (ht : l.thunks id id') :
    Option.Rel (Datum.Alike l) (h.forced? id) (h'.forced? id') := by
  have hstate := (ha.thunk ht).state
  unfold Heap.forced?
  generalize (h.thunk id).state = state at hstate
  generalize (h'.thunk id').state = state' at hstate
  cases hstate with
  | unforced | forcing => exact .none
  | forced hd => exact .some hd

theorem reveal {d d' : Datum} (hd : d.Alike l d') : h.reveal d = h'.reveal d' := by
  suffices hwithin : ∀ look opened d d', d.Alike l d' →
      h.revealWithin look opened d = h'.revealWithin look opened d' by
    rw [Heap.reveal, Heap.reveal, ← ha.records_size]
    exact hwithin _ _ _ _ hd
  intro look
  induction look with
  | zero =>
    intro opened d d' hd
    cases hd with
    | closure hc =>
      simp only [revealWithin]
      exact congrArg Value.function (ha.closure hc).name
    | _ => simp only [revealWithin]
  | succ look ih =>
    intro opened d d' hd
    cases hd with
    | closure hc =>
      simp only [revealWithin]
      exact congrArg Value.function (ha.closure hc).name
    | record id =>
      simp only [revealWithin]
      have hrecord := ha.record id
      generalize h.record id = fields at hrecord
      generalize h'.record id = fields' at hrecord
      congr 2
      induction hrecord with
      | nil => rfl
      | @cons field field' _ _ hf _ ihf =>
        have hforced := ha.forced? hf.2
        simp only [List.filterMap_cons]
        generalize h.forced? field.2 = found at hforced
        generalize h'.forced? field'.2 = found' at hforced
        cases hforced with
        | none => exact ihf
        | some hd => simp only [hd.isAmong_eq, ih _ _ _ hd, hf.1, ihf]
    | _ => simp only [revealWithin]

end Reading

section Writing

theorem addFrame_eq : h.addFrame.1 = h'.addFrame.1 := congrArg FrameId.mk ha.frames_size

theorem addFrame : h.addFrame.2.Alike named l h'.addFrame.2 where
  frames_size := by simp [Heap.addFrame, ha.frames_size]
  records_size := ha.records_size
  thunk_lt := ha.thunk_lt
  closure_lt := ha.closure_lt
  left_unique := ha.left_unique
  right_unique := ha.right_unique
  thunk := ha.thunk
  closure := ha.closure
  record := ha.record
  frame id slot hn := by
    rw [frame_addFrame, frame_addFrame]
    exact ha.frame id slot hn

theorem declare {b b' : Binding} (hb : b.Alike l b') (frame : FrameId) (slot : Slot) :
    (h.declare frame slot b).Alike named l (h'.declare frame slot b') where
  frames_size := by simp [Heap.declare, ha.frames_size]
  records_size := ha.records_size
  thunk_lt := ha.thunk_lt
  closure_lt := ha.closure_lt
  left_unique := ha.left_unique
  right_unique := ha.right_unique
  thunk := ha.thunk
  closure := ha.closure
  record := ha.record
  frame id other hn := by
    rw [frame_declare, frame_declare, ← ha.frames_size]
    split
    · rw [Frame.lookup_declare, Frame.lookup_declare]
      split
      · exact .some hb
      · exact ha.frame frame other hn
    · exact ha.frame id other hn

theorem delay (label : String) {e e' : Expr} (he : e.Alike named e') (scope : Scope) :
    (h.delay label e scope).2.Alike named (l.addThunk ⟨h.thunks.size⟩ ⟨h'.thunks.size⟩)
      (h'.delay label e' scope).2 := by
  have hl := l.extends_addThunk ⟨h.thunks.size⟩ ⟨h'.thunks.size⟩
  have hne {id id' : ThunkId} (ht : l.thunks id id') :
      id.index ≠ h.thunks.size ∧ id'.index ≠ h'.thunks.size :=
    ⟨Nat.ne_of_lt (ha.thunk_lt ht).1, Nat.ne_of_lt (ha.thunk_lt ht).2⟩
  refine ⟨ha.frames_size, ha.records_size, fun {id id'} ht => ?_, ha.closure_lt,
    fun {id id' other} ht ho => ?_, fun {id id' other} ht ho => ?_, fun {id id'} ht => ?_,
    ha.closure, fun id => (ha.record id).mono hl,
    fun id slot hn => Option.rel_binding_mono hl (ha.frame id slot hn)⟩
  · simp only [Heap.delay, Array.size_push]
    rcases ht with ht | ⟨rfl, rfl⟩
    · exact ⟨Nat.lt_succ_of_lt (ha.thunk_lt ht).1, Nat.lt_succ_of_lt (ha.thunk_lt ht).2⟩
    · exact ⟨Nat.lt_succ_self _, Nat.lt_succ_self _⟩
  · rcases ht with ht | ⟨rfl, rfl⟩ <;> rcases ho with ho | ⟨hid, rfl⟩
    · exact ha.left_unique ht ho
    · exact absurd (congrArg ThunkId.index hid) (hne ht).1
    · exact absurd rfl (hne ho).1
    · rfl
  · rcases ht with ht | ⟨rfl, rfl⟩ <;> rcases ho with ho | ⟨rfl, hid⟩
    · exact ha.right_unique ht ho
    · exact absurd (congrArg ThunkId.index hid) (hne ht).2
    · exact absurd rfl (hne ho).2
    · rfl
  · rw [thunk_delay, thunk_delay]
    rcases ht with ht | ⟨rfl, rfl⟩
    · rw [if_neg (hne ht).1, if_neg (hne ht).2]
      exact (ha.thunk ht).mono hl
    · rw [if_pos rfl, if_pos rfl]
      exact ⟨rfl, he, rfl, .unforced⟩

theorem declareDelayed (frame : FrameId) (slot : Slot) (label : String) {e e' : Expr}
    (he : e.Alike named e') (scope : Scope) :
    (h.declareDelayed frame slot label e scope).2.Alike named
      (l.addThunk ⟨h.thunks.size⟩ ⟨h'.thunks.size⟩)
      (h'.declareDelayed frame slot label e' scope).2 :=
  (ha.delay label he scope).declare (.delayed (.inr ⟨rfl, rfl⟩)) frame slot

theorem setState {id id' : ThunkId} (ht : l.thunks id id') {s s' : ThunkState}
    (hs : s.Alike l s') : (h.setState id s).Alike named l (h'.setState id' s') := by
  have hsize : (h.setState id s).thunks.size = h.thunks.size := by simp [Heap.setState]
  have hsize' : (h'.setState id' s').thunks.size = h'.thunks.size := by simp [Heap.setState]
  refine ⟨ha.frames_size, ha.records_size, fun ht => ?_, ha.closure_lt, ha.left_unique,
    ha.right_unique, fun {other other'} ho => ?_, ha.closure, ha.record, ha.frame⟩
  · rw [hsize, hsize']
    exact ha.thunk_lt ht
  · obtain ⟨hlt, hlt'⟩ := ha.thunk_lt ht
    rw [thunk_setState, thunk_setState]
    by_cases hid : other = id
    · subst hid
      obtain rfl := ha.left_unique ht ho
      rw [if_pos ⟨rfl, hlt⟩, if_pos ⟨rfl, hlt'⟩]
      have hthunk := ha.thunk ht
      exact ⟨hthunk.label, hthunk.expr, hthunk.scope, hs⟩
    · have hid' : other' ≠ id' := by
        rintro rfl
        exact hid (ha.right_unique ho ht)
      rw [if_neg (by simp [hid]), if_neg (by simp [hid'])]
      exact ha.thunk ho

theorem addRecord {fields fields' : List (String × ThunkId)} (hf : FieldsAlike l fields fields') :
    (h.addRecord fields).2.Alike named l (h'.addRecord fields').2 where
  frames_size := ha.frames_size
  records_size := by simp [Heap.addRecord, ha.records_size]
  thunk_lt := ha.thunk_lt
  closure_lt := ha.closure_lt
  left_unique := ha.left_unique
  right_unique := ha.right_unique
  thunk := ha.thunk
  closure := ha.closure
  record id := by
    rw [record_push, record_push, ← ha.records_size]
    split
    · exact hf
    · exact ha.record id
  frame := ha.frame

theorem addClosure {c c' : Closure} (hc : c.Alike named c') :
    (h.addClosure c).2.Alike named (l.addClosure ⟨h.closures.size⟩ ⟨h'.closures.size⟩)
      (h'.addClosure c').2 := by
  have hl := l.extends_addClosure ⟨h.closures.size⟩ ⟨h'.closures.size⟩
  refine ⟨ha.frames_size, ha.records_size, ha.thunk_lt, fun hi => ?_, ha.left_unique,
    ha.right_unique, fun ht => (ha.thunk ht).mono hl, fun {id id'} hi => ?_,
    fun id => (ha.record id).mono hl,
    fun id slot hn => Option.rel_binding_mono hl (ha.frame id slot hn)⟩
  · simp only [Heap.addClosure, Array.size_push]
    rcases hi with hi | ⟨rfl, rfl⟩
    · exact ⟨Nat.lt_succ_of_lt (ha.closure_lt hi).1, Nat.lt_succ_of_lt (ha.closure_lt hi).2⟩
    · exact ⟨Nat.lt_succ_self _, Nat.lt_succ_self _⟩
  · rw [closure_push, closure_push]
    rcases hi with hi | ⟨rfl, rfl⟩
    · rw [if_neg (Nat.ne_of_lt (ha.closure_lt hi).1), if_neg (Nat.ne_of_lt (ha.closure_lt hi).2)]
      exact ha.closure hi
    · rw [if_pos rfl, if_pos rfl]
      exact hc

end Writing

section Binding

theorem bindFields (frame : FrameId) (outer : Scope) {fields fields' : List Field}
    (hn : fields.map Field.name = fields'.map Field.name)
    (hs : fields.map Field.slot = fields'.map Field.slot)
    (hv : List.Forall₂ (Expr.Alike named) (fields.map Field.value) (fields'.map Field.value)) :
    ∃ more, l.Extends more ∧ (h.bindFields frame outer fields).2.Alike named more
        (h'.bindFields frame outer fields').2 ∧
      FieldsAlike more (h.bindFields frame outer fields).1
        (h'.bindFields frame outer fields').1 := by
  induction fields generalizing fields' l h h' with
  | nil =>
    cases fields' with
    | nil => exact ⟨l, .refl l, ha, .nil⟩
    | cons => cases hn
  | cons field rest ih =>
    cases fields' with
    | nil => cases hn
    | cons field' rest' =>
      obtain ⟨name, slot, value⟩ := field
      obtain ⟨name', slot', value'⟩ := field'
      simp only [List.map_cons, List.cons.injEq, List.forall₂_cons] at hn hs hv
      obtain ⟨rfl, hn⟩ : name = name' ∧ _ := hn
      obtain ⟨rfl, hs⟩ : slot = slot' ∧ _ := hs
      have hfirst := ha.declareDelayed frame slot name hv.1 (frame :: outer)
      obtain ⟨more, hl, hrest, hfields⟩ := ih hfirst hn hs hv.2
      exact ⟨more, (l.extends_addThunk _ _).trans hl, hrest,
        .cons ⟨rfl, hl.thunks (.inr ⟨rfl, rfl⟩)⟩ hfields⟩

theorem bindParams (frame : FrameId) (caller : Scope) (params : List Slot) {args args' : List Expr}
    (hargs : List.Forall₂ (Expr.Alike named) args args') :
    ∃ more, l.Extends more ∧ (h.bindParams frame caller params args).Alike named more
      (h'.bindParams frame caller params args') := by
  induction params generalizing args args' l h h' with
  | nil => exact ⟨l, .refl l, ha⟩
  | cons param params ih =>
    cases hargs with
    | nil => exact ⟨l, .refl l, ha⟩
    | cons harg hargs =>
      have hfirst := ha.declareDelayed frame param param.name harg caller
      obtain ⟨more, hl, hrest⟩ := ih hfirst hargs
      exact ⟨more, (l.extends_addThunk _ _).trans hl, hrest⟩

theorem openRecord (scope : Scope) {fields fields' : List Field}
    (hn : fields.map Field.name = fields'.map Field.name)
    (hs : fields.map Field.slot = fields'.map Field.slot)
    (hv : List.Forall₂ (Expr.Alike named) (fields.map Field.value) (fields'.map Field.value)) :
    ∃ more, l.Extends more ∧
      (h.openRecord scope fields).1 = (h'.openRecord scope fields').1 ∧
      (h.openRecord scope fields).2.Alike named more (h'.openRecord scope fields').2 := by
  obtain ⟨more, hl, hbound, hfields⟩ := ha.addFrame.bindFields h.addFrame.1 scope hn hs hv
  have hopen : h'.openRecord scope fields' =
      (h'.addFrame.2.bindFields h'.addFrame.1 scope fields').2.addRecord
        (h'.addFrame.2.bindFields h'.addFrame.1 scope fields').1 := rfl
  rw [hopen, ← ha.addFrame_eq]
  exact ⟨more, hl, congrArg RecordId.mk hbound.records_size, hbound.addRecord hfields⟩

theorem openCall {c c' : Closure} (hc : c.Alike named c') {args args' : List Expr}
    (hargs : List.Forall₂ (Expr.Alike named) args args') (caller : Scope) :
    ∃ more, l.Extends more ∧
      (h.openCall c args caller).1 = (h'.openCall c' args' caller).1 ∧
      (h.openCall c args caller).2.Alike named more (h'.openCall c' args' caller).2 := by
  obtain ⟨more, hl, hbound⟩ := ha.addFrame.bindParams h.addFrame.1 caller c.params hargs
  have hopen : h'.openCall c' args' caller = (h'.addFrame.1 :: c'.scope,
      h'.addFrame.2.bindParams h'.addFrame.1 caller c'.params args') := rfl
  rw [hopen, ← ha.addFrame_eq, ← hc.params, ← hc.scope]
  exact ⟨more, hl, rfl, hbound⟩

end Binding

end Heap.Alike

end Inquiry
