import Inquiry.Proofs.Pass.References
set_option autoImplicit false

/-!
What the parts of a program have of it. A turn takes expressions apart, puts them off and takes them
up again. So what an expression hands down to its parts, everything has that a pass may still
evaluate, in the scope in which it is to be evaluated.
-/

namespace Inquiry

theorem eq_flatMap {α β : Type} {f : α → List β} {all : List α → List β} (hn : all [] = [])
    (hc : ∀ a as, all (a :: as) = f a ++ all as) (as : List α) : all as = as.flatMap f := by
  induction as with
  | nil => exact hn
  | cons a as ih => rw [hc, ih, List.flatMap_cons]

def Stmt.value : Stmt → Expr
  | .bind _ value | .expr value => value

theorem Stmt.mem_of_lastExpr? {body : List Stmt} {e : Expr} (h : lastExpr? body = some e) :
    .expr e ∈ body := by
  induction body with
  | nil => contradiction
  | cons stmt rest ih =>
    cases stmt with
    | bind slot value => exact List.mem_cons_of_mem _ (ih h)
    | expr last =>
      simp only [lastExpr?] at h
      cases hl : lastExpr? rest with
      | none =>
        simp only [hl, Option.none_or, Option.some.injEq] at h
        exact h ▸ List.mem_cons_self
      | some later =>
        simp only [hl, Option.some_or] at h
        exact List.mem_cons_of_mem _ (ih (hl.trans h))

/-- The parts of an expression that are evaluated where it is. -/
def Expr.operands : Expr → List Expr
  | .binary _ left right | .logical _ left right => [left, right]
  | .unary _ operand | .access operand _ => [operand]
  | .conditional predicate consequent alternate => [predicate, consequent, alternate]
  | .call callee args => callee :: args
  | _ => []

def Closure.expr (closure : Closure) : Expr := .function closure.name closure.params closure.body

/-- What an expression hands down to its parts, given the slots that are in view. Inside records,
functions and blocks there are more. -/
structure Hereditary (q : List Nat → Expr → Prop) : Prop where
  mono {shown more : List Nat} {e : Expr} : q shown e → shown ⊆ more → q more e
  operand {shown : List Nat} {e : Expr} : q shown e → ∀ part ∈ e.operands, q shown part
  record {shown : List Nat} {fields : List Field} : q shown (.record fields) →
    ∀ field ∈ fields, q (slotIds (Field.bindings fields) ++ shown) field.value
  function {shown : List Nat} {name : Option String} {params : List Slot} {body : Expr} :
    q shown (.function name params body) → q (params.map Slot.id ++ shown) body
  block {shown : List Nat} {body : List Stmt} : q shown (.block body) →
    ∀ stmt ∈ body, q (slotIds (Stmt.bindings body) ++ shown) stmt.value

/-- What was put off satisfies `p` in its scope, and so do the functions that were made. -/
structure Heap.Stores (p : Scope → Expr → Prop) (h : Heap) : Prop where
  thunk : ∀ thunk ∈ h.thunks, p thunk.scope thunk.expr
  closure : ∀ closure ∈ h.closures, p closure.scope closure.expr

namespace Heap

variable {p : Scope → Expr → Prop} {h later : Heap}

namespace Stores

theorem mono {p' : Scope → Expr → Prop} (hh : h.Stores p)
    (hp : ∀ scope e, p scope e → p' scope e) : h.Stores p' :=
  ⟨fun thunk ht => hp _ _ (hh.thunk thunk ht), fun closure hc => hp _ _ (hh.closure closure hc)⟩

theorem addClosure {closure : Closure} (hh : h.Stores p) (hc : p closure.scope closure.expr) :
    (h.addClosure closure).2.Stores p := by
  refine ⟨hh.thunk, fun other ho => ?_⟩
  rcases Array.mem_push.mp ho with ho | rfl
  · exact hh.closure other ho
  · exact hc

theorem delay {label : String} {e : Expr} {scope : Scope} (hh : h.Stores p) (he : p scope e) :
    (h.delay label e scope).2.Stores p := by
  refine ⟨fun thunk ht => ?_, hh.closure⟩
  rcases Array.mem_push.mp ht with ht | rfl
  · exact hh.thunk thunk ht
  · exact he

theorem setState (hh : h.Stores p) (id : ThunkId) (state : ThunkState) :
    (h.setState id state).Stores p := by
  refine ⟨fun thunk ht => ?_, hh.closure⟩
  have hmodify : thunk ∈ h.thunks.modify id.index fun t => { t with state } := ht
  obtain ⟨before, hb, rfl | rfl⟩ := exists_of_mem_modify hmodify
  · exact hh.thunk thunk hb
  · exact hh.thunk before hb

theorem declare (hh : h.Stores p) (frame : FrameId) (slot : Slot) (binding : Binding) :
    (h.declare frame slot binding).Stores p := ⟨hh.thunk, hh.closure⟩

theorem declares {frame : FrameId} {scope : Scope} {bindings : List (Slot × Expr)}
    (hh : h.Stores p) (hd : Declares frame scope bindings h later)
    (hb : ∀ binding ∈ bindings, p scope binding.2) : later.Stores p := by
  induction hd with
  | nil => exact hh
  | @delayed h later slot label e rest hr ih =>
    obtain ⟨he, hrest⟩ := List.forall_mem_cons.mp hb
    have hd : (h.delay label e scope).2.Stores p := hh.delay he
    exact ih (hd.declare _ _ _) hrest
  | @function h later slot name params body _ rest hi hr ih =>
    obtain ⟨he, hrest⟩ := List.forall_mem_cons.mp hb
    have hc : (h.addClosure ⟨name, params, body, scope⟩).2.Stores p := hh.addClosure he
    exact ih (hc.declare _ _ _) hrest

end Stores

def Admits (q : List Nat → Expr → Prop) (h : Heap) (scope : Scope) (e : Expr) : Prop :=
  q (h.inView scope) e

variable {q : List Nat → Expr → Prop} (hq : Hereditary q)
include hq

theorem Shows.admits (hs : h.Shows later) {scope : Scope} {e : Expr} (he : h.Admits q scope e) :
    later.Admits q scope e := hq.mono he (hs.inView scope)

theorem Opens.stores {frame : FrameId} {scope : Scope} {bindings : List (Slot × Expr)}
    (ho : h.Opens frame scope bindings later) (hh : h.Stores (h.Admits q))
    (hb : ∀ binding ∈ bindings, later.Admits q scope binding.2) :
    later.Stores (later.Admits q) := by
  -- What is put off may read slots that are not declared yet, so all is judged by the last heap.
  have hmono : h.Stores (later.Admits q) := hh.mono fun _ _ => ho.shows.admits hq
  have hframe : h.addFrame.2.Stores (later.Admits q) := ⟨hmono.thunk, hmono.closure⟩
  exact hframe.declares ho.declares hb

theorem stores_of_openBlock {scope inner : Scope} {body : List Stmt}
    (ho : h.openBlock scope body = (inner, later)) (hh : h.Stores (h.Admits q))
    (hb : h.Admits q scope (.block body)) :
    h.Shows later ∧ later.Stores (later.Admits q) ∧
      ∀ stmt ∈ body, later.Admits q inner stmt.value := by
  obtain ⟨frame, rfl, hopens⟩ := openBlock_opens ho
  have hbody : ∀ stmt ∈ body, later.Admits q (frame :: scope) stmt.value :=
    fun stmt hm => hq.mono (hq.block hb stmt hm) (hopens.inView scope)
  refine ⟨hopens.shows, hopens.stores hq hh ?_, hbody⟩
  rintro ⟨slot, e⟩ hm
  exact hbody _ (Stmt.mem_of_bindings hm)

theorem stores_of_openRecord {scope : Scope} {fields : List Field} {id : RecordId}
    (ho : h.openRecord scope fields = (id, later)) (hh : h.Stores (h.Admits q))
    (hr : h.Admits q scope (.record fields)) :
    h.Shows later ∧ later.Stores (later.Admits q) := by
  obtain ⟨frame, made, named, hopens, rfl⟩ := openRecord_opens ho
  have hmade : made.Stores (made.Admits q) := by
    refine hopens.stores hq hh ?_
    intro binding hm
    obtain ⟨field, hf, rfl⟩ := List.mem_map.mp hm
    exact hq.mono (hq.record hr field hf) (hopens.inView scope)
  exact ⟨hopens.shows, hmade.thunk, hmade.closure⟩

theorem stores_of_openCall {closure : Closure} {args : List Expr} {caller inner : Scope}
    (ho : h.openCall closure args caller = (inner, later)) (hh : h.Stores (h.Admits q))
    (hn : closure.params.length = args.length)
    (hc : h.Admits q closure.scope closure.expr) (ha : ∀ arg ∈ args, h.Admits q caller arg) :
    h.Shows later ∧ later.Stores (later.Admits q) ∧ later.Admits q inner closure.body := by
  obtain ⟨frame, rfl, hopens⟩ := openCall_opens ho
  refine ⟨hopens.shows, hopens.stores hq hh ?_, ?_⟩
  · intro binding hm
    exact hopens.shows.admits hq (ha _ (List.of_mem_zip hm).2)
  · exact hq.mono (hq.function hc) (slotIds_zip hn ▸ hopens.inView closure.scope)

end Heap

variable {q : List Nat → Expr → Prop}

def Task.Inherits (q : List Nat → Expr → Prop) (h : Heap) : Task → Prop
  | .binaryRight _ right scope | .logicalRight _ right scope => h.Admits q scope right
  | .branch consequent alternate scope =>
    h.Admits q scope consequent ∧ h.Admits q scope alternate
  | .callee args scope => ∀ arg ∈ args, h.Admits q scope arg
  | _ => True

def Control.Inherits (q : List Nat → Expr → Prop) (h : Heap) : Control → Prop
  | .eval e scope => h.Admits q scope e
  | .give _ => True

theorem Task.Inherits.mono {h later : Heap} {task : Task} (ht : task.Inherits q h)
    (hq : Hereditary q) (hs : h.Shows later) : task.Inherits q later := by
  cases task with
  | binaryRight | logicalRight => exact hs.admits hq ht
  | branch => exact ⟨hs.admits hq ht.1, hs.admits hq ht.2⟩
  | callee => exact fun arg ha => hs.admits hq (ht arg ha)
  | _ => trivial

structure Machine.Inherits (q : List Nat → Expr → Prop) (m : Machine) : Prop where
  heap : m.heap.Stores (m.heap.Admits q)
  stack : ∀ task ∈ m.stack, task.Inherits q m.heap

namespace Machine

variable {answers : Answers} {parents : Parents} {m m' : Machine} {control next : Control}

theorem inherits_push {task : Task} :
    (m.push task).Inherits q ↔ task.Inherits q m.heap ∧ m.Inherits q := by
  constructor
  · rintro ⟨hheap, hstack⟩
    obtain ⟨htask, hrest⟩ := List.forall_mem_cons.mp hstack
    exact ⟨htask, hheap, hrest⟩
  · rintro ⟨htask, hheap, hrest⟩
    exact ⟨hheap, List.forall_mem_cons.mpr ⟨htask, hrest⟩⟩

namespace Inherits

theorem write (hm : m.Inherits q) (d : Datum) (rule : Summary → Rule) :
    (m.write d rule).Inherits q := ⟨hm.heap, hm.stack⟩

theorem setState (hm : m.Inherits q) (id : ThunkId) (state : ThunkState) :
    (m.withHeap (m.heap.setState id state)).Inherits q :=
  ⟨hm.heap.setState id state, hm.stack⟩

theorem enter (hm : m.Inherits q) (id : ThunkId) {task : Task} (ht : task.Inherits q m.heap) :
    (m.enter id task).Inherits q :=
  inherits_push.mpr ⟨trivial, inherits_push.mpr ⟨ht, hm.setState id .forcing⟩⟩

theorem withHeap (hq : Hereditary q) {heap : Heap} (hm : m.Inherits q) (hs : m.heap.Shows heap)
    (hh : heap.Stores (heap.Admits q)) : (m.withHeap heap).Inherits q :=
  ⟨hh, fun task ht => (hm.stack task ht).mono hq hs⟩

theorem thunk (hm : m.Inherits q) {id : ThunkId} (hi : id.index < m.heap.thunks.size) :
    m.heap.Admits q (m.heap.thunk id).scope (m.heap.thunk id).expr :=
  hm.heap.thunk _ (Heap.thunk_mem hi)

theorem fieldMove {record : RecordId} {i : Nat} (hm : m.Inherits q) (hsound : m.Sound parents)
    (hr : record.index < m.heap.records.size) (hf : FieldMove record i m (.next next m')) :
    m'.Inherits q ∧ next.Inherits q m'.heap := by
  have hfield : (m.push (.recordField record i)).Inherits q := inherits_push.mpr ⟨trivial, hm⟩
  cases hf with
  | ready hf hs =>
    have hcomplete : ((m.push (.recordField record i)).push .complete).Inherits q :=
      inherits_push.mpr ⟨trivial, hfield⟩
    exact ⟨hcomplete.write _ _, trivial⟩
  | start hf hs =>
    have hi := hsound.heap.field hr (List.mem_of_getElem? hf)
    exact ⟨hfield.enter _ trivial, hm.thunk hi⟩
  | close hf => exact ⟨⟨hm.heap, hm.stack⟩, trivial⟩

theorem step (hq : Hereditary q) (hm : m.Inherits q) (hc : control.Inherits q m.heap)
    (hsound : m.Sound parents) (hk : control.Known parents m.heap)
    (hs : m.step answers control = .next next m') : m'.Inherits q ∧ next.Inherits q m'.heap := by
  cases move_of_step hs with
  | number | boolean | answered | nameBound | nameReady => exact ⟨hm.write _ _, trivial⟩
  | record ho =>
    obtain ⟨hshows, hh⟩ := Heap.stores_of_openRecord hq ho hm.heap hc
    exact ⟨(hm.withHeap hq hshows hh).write _ _, trivial⟩
  | @function m scope name params body id heap ho =>
    have hh : (m.heap.addClosure ⟨name, params, body, scope⟩).2.Stores (m.heap.Admits q) :=
      hm.heap.addClosure hc
    cases ho
    exact ⟨⟨hh, hm.stack⟩, trivial⟩
  | nameStart hl => exact ⟨hm.enter _ trivial, hm.thunk (hsound.heap.lookup hl)⟩
  | binary | logical =>
    obtain ⟨hleft, hrest⟩ := List.forall_mem_cons.mp (hq.operand hc)
    have hright := List.forall_mem_singleton.mp hrest
    exact ⟨inherits_push.mpr ⟨hright, hm⟩, hleft⟩
  | unary | access =>
    have hpart := List.forall_mem_singleton.mp (hq.operand hc)
    exact ⟨inherits_push.mpr ⟨trivial, hm⟩, hpart⟩
  | conditional =>
    obtain ⟨hpredicate, hrest⟩ := List.forall_mem_cons.mp (hq.operand hc)
    obtain ⟨hconsequent, hrest⟩ := List.forall_mem_cons.mp hrest
    have hbranches := And.intro hconsequent (List.forall_mem_singleton.mp hrest)
    exact ⟨inherits_push.mpr ⟨hbranches, hm⟩, hpredicate⟩
  | call =>
    obtain ⟨hcallee, hargs⟩ := List.forall_mem_cons.mp (hq.operand hc)
    exact ⟨inherits_push.mpr ⟨hargs, hm⟩, hcallee⟩
  | block ho he =>
    obtain ⟨hshows, hh, hb⟩ := Heap.stores_of_openBlock hq ho hm.heap hc
    have hinner := hm.withHeap hq hshows hh
    exact ⟨inherits_push.mpr ⟨trivial, hinner⟩, hb _ (Stmt.mem_of_lastExpr? he)⟩
  | blockOfNames _ ho =>
    obtain ⟨hshows, hh, _⟩ := Heap.stores_of_openBlock hq ho hm.heap hc
    exact ⟨(hm.withHeap hq hshows hh).write _ _, trivial⟩
  | binaryRight | logicalRight =>
    obtain ⟨ht, hrest⟩ := inherits_push.mp hm
    exact ⟨inherits_push.mpr ⟨trivial, hrest⟩, ht⟩
  | @branch m taken =>
    obtain ⟨ht, hrest⟩ := inherits_push.mp hm
    refine ⟨inherits_push.mpr ⟨trivial, hrest⟩, ?_⟩
    cases taken with
    | true => exact ht.1
    | false => exact ht.2
  | accessStart hf =>
    obtain ⟨_, hrest⟩ := inherits_push.mp hm
    have hi := hsound.heap.field hk (Heap.mem_record_of_field? hf)
    exact ⟨hrest.enter _ trivial, hrest.thunk hi⟩
  | memoize => exact ⟨(inherits_push.mp hm).2.setState _ _, trivial⟩
  | callee hn ho =>
    obtain ⟨hargs, hrest⟩ := inherits_push.mp hm
    have hclosure := hrest.heap.closure _ (Heap.closure_mem hk)
    obtain ⟨hshows, hh, hbody⟩ := Heap.stores_of_openCall hq ho hrest.heap hn hclosure hargs
    exact ⟨inherits_push.mpr ⟨trivial, hrest.withHeap hq hshows hh⟩, hbody⟩
  | completePlain => exact ⟨(inherits_push.mp hm).2, trivial⟩
  | @completeRecord m record _ _ hf =>
    obtain ⟨_, hrest⟩ := inherits_push.mp hm
    have hopen : (m.openResult record).Inherits q := ⟨hrest.heap, hrest.stack⟩
    have hsound := (sound_push.mp hsound).2.openResult hk
    exact hopen.fieldMove hsound hk hf
  | recordField hf =>
    obtain ⟨ht, hsound⟩ := sound_push.mp hsound
    exact (inherits_push.mp hm).2.fieldMove hsound ht hf
  | _ => exact ⟨(inherits_push.mp hm).2.write _ _, trivial⟩

end Inherits

theorem inherits_enterBlock (hq : Hereditary q) {captureTrace : Bool} {body : List Stmt}
    (hb : q [] (.block body))
    (h : (initial captureTrace).enterBlock Heap.globalFrame [] body = (control, m)) :
    m.Inherits q ∧ control.Inherits q m.heap := by
  -- The global frame is the first one to be opened.
  have ho : Heap.openBlock ⟨#[], #[], #[], #[]⟩ [] body =
      ([Heap.globalFrame], Heap.initial.bindAll Heap.globalFrame [] body) := rfl
  obtain ⟨_, hh, hlast⟩ := Heap.stores_of_openBlock hq ho ⟨by simp, by simp⟩ hb
  obtain ⟨e, he, rfl, rfl⟩ | ⟨rfl, rfl⟩ := enterBlock_initial h
  · exact ⟨⟨hh, by simp [Task.Inherits]⟩, hlast _ (Stmt.mem_of_lastExpr? he)⟩
  · exact ⟨⟨hh, by simp [Task.Inherits]⟩, trivial⟩

end Machine

def Standing.Inherits (q : List Nat → Expr → Prop) (h : Heap) : Standing → Prop
  | .running control => control.Inherits q h
  | .parked question => ∃ scope, h.Admits q scope (.input question)
  | .finished _ => True

/-- What is true of the program, and handed down, is true of all that its passes come to. -/
theorem Pass.Reaches.inherits (hq : Hereditary q) {captureTrace : Bool} {program : Program}
    {standing : Standing} {m : Machine} (hp : q [] (.block program.body))
    (h : Pass.Reaches captureTrace program standing m) :
    m.Inherits q ∧ standing.Inherits q m.heap := by
  induction h with
  | start _ hm => exact Machine.inherits_enterBlock hq hp hm
  | next h hs ih =>
    obtain ⟨parents, hsound, hk⟩ := h.sound
    exact ih.1.step hq ih.2 hsound hk hs
  | stop _ hs ho ih =>
    obtain ⟨rfl, hcases⟩ := Machine.eq_of_stop hs ho
    rcases hcases with ⟨question, scope, rfl, rfl⟩ | ⟨d, rfl, rfl, _⟩
    · exact ⟨ih.1, scope, ih.2⟩
    · exact ⟨ih.1, trivial⟩
  | answer answer _ ih => exact ⟨⟨ih.1.heap, ih.1.stack⟩, trivial⟩

end Inquiry
