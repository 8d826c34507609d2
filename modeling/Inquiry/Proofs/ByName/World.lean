import Mathlib.Data.List.Forall2
import Inquiry.Proofs.ByName.Evaluator
import Inquiry.Proofs.Heap.Records
set_option autoImplicit false

/-!
What a heap stands for without a store. A frame stands for an environment, a delayed expression for
the expression in its environment, a record and a closure for a form. The heap changes and grows,
but what is there already goes on standing for the same.
-/

namespace Inquiry

/-- Nothing that was settled in `h` is different in `later`, and nothing more is under
evaluation. -/
structure Heap.Evolves (h later : Heap) : Prop where
  forced : ∀ id d, (h.thunk id).state = .forced d → (later.thunk id).state = .forced d
  forcing : ∀ id, (later.thunk id).state = .forcing → (h.thunk id).state = .forcing
  records : ∀ (i : Nat) fields, h.records[i]? = some fields → later.records[i]? = some fields
  closures : ∀ (i : Nat) closure, h.closures[i]? = some closure → later.closures[i]? = some closure

theorem Heap.Evolves.refl (h : Heap) : h.Evolves h :=
  ⟨fun _ _ hd => hd, fun _ hf => hf, fun _ _ hr => hr, fun _ _ hc => hc⟩

theorem Heap.Evolves.trans {h later latest : Heap} (hl : h.Evolves later)
    (hr : later.Evolves latest) : h.Evolves latest where
  forced id d hd := hr.forced id d (hl.forced id d hd)
  forcing id hf := hl.forcing id (hr.forcing id hf)
  records i fields hi := hr.records i fields (hl.records i fields hi)
  closures i closure hi := hr.closures i closure (hl.closures i closure hi)

namespace ByName

structure World where
  frames : List Env
  thunks : List (Expr × Env)
  records : List Form
  closures : List Form

namespace World

structure Grows (w later : World) : Prop where
  frames : ∀ (i : Nat) env, w.frames[i]? = some env → later.frames[i]? = some env
  thunks : ∀ (i : Nat) thunk, w.thunks[i]? = some thunk → later.thunks[i]? = some thunk
  records : ∀ (i : Nat) form, w.records[i]? = some form → later.records[i]? = some form
  closures : ∀ (i : Nat) form, w.closures[i]? = some form → later.closures[i]? = some form

theorem Grows.refl (w : World) : w.Grows w :=
  ⟨fun _ _ h => h, fun _ _ h => h, fun _ _ h => h, fun _ _ h => h⟩

theorem Grows.trans {w later latest : World} (hl : w.Grows later) (hr : later.Grows latest) :
    w.Grows latest where
  frames i env h := hr.frames i env (hl.frames i env h)
  thunks i thunk h := hr.thunks i thunk (hl.thunks i thunk h)
  records i form h := hr.records i form (hl.records i form h)
  closures i form h := hr.closures i form (hl.closures i form h)

variable {w later : World}

/-- The environment that is seen through the frames of a scope. -/
inductive Reads (w : World) : Scope → Env → Prop where
  | nil : Reads w [] .nil
  | cons {frame : FrameId} {outer : Scope} {env : Env} (hf : w.frames[frame.index]? = some env)
      (hn : env ≠ .nil) (ho : Reads w outer env.outer) : Reads w (frame :: outer) env

theorem Reads.mono (hw : w.Grows later) {scope : Scope} {env : Env} (h : w.Reads scope env) :
    later.Reads scope env := by
  induction h with
  | nil => exact .nil
  | cons hf hn _ ih => exact .cons (hw.frames _ _ hf) hn ih

inductive Stands (w : World) : Datum → Form → Prop where
  | number (n : Int64) : Stands w (.number n) (.number n)
  | boolean (b : Bool) : Stands w (.boolean b) (.boolean b)
  | record {id : RecordId} {fields : List Field} {env : Env}
      (h : w.records[id.index]? = some (.record fields env)) :
      Stands w (.record id) (.record fields env)
  | closure {id : ClosureId} {name : Option String} {params : List Slot} {body : Expr} {env : Env}
      (h : w.closures[id.index]? = some (.closure name params body env)) :
      Stands w (.closure id) (.closure name params body env)
  | undefined : Stands w .undefined .undefined

theorem Stands.mono (hw : w.Grows later) {d : Datum} {form : Form} (h : w.Stands d form) :
    later.Stands d form := by
  cases h with
  | number n => exact .number n
  | boolean b => exact .boolean b
  | record h => exact .record (hw.records _ _ h)
  | closure h => exact .closure (hw.closures _ _ h)
  | undefined => exact .undefined

/-- A binding and what it is bound to. A function of a block has its value at once. -/
inductive Bound (w : World) : Option Binding → Option (Expr × Env) → Prop where
  | none : Bound w none none
  | delayed {id : ThunkId} {e : Expr} {env : Env} (h : w.thunks[id.index]? = some (e, env)) :
      Bound w (some (.delayed id)) (some (e, env))
  | function {id : ClosureId} {name : Option String} {params : List Slot} {body : Expr} {env : Env}
      (h : w.closures[id.index]? = some (.closure name params body env)) :
      Bound w (some (.value (.closure id))) (some (.function name params body, env))

theorem Bound.mono (hw : w.Grows later) {binding : Option Binding} {found : Option (Expr × Env)}
    (h : w.Bound binding found) : later.Bound binding found := by
  cases h with
  | none => exact .none
  | delayed h => exact .delayed (hw.thunks _ _ h)
  | function h => exact .function (hw.closures _ _ h)

def Holds (w : World) (inner : Env) : List (String × ThunkId) → List Field → Prop :=
  List.Forall₂ fun entry field =>
    entry.1 = field.name ∧ w.thunks[entry.2.index]? = some (field.value, inner)

theorem Holds.mono (hw : w.Grows later) {inner : Env} {entries : List (String × ThunkId)}
    {fields : List Field} (h : w.Holds inner entries fields) :
    later.Holds inner entries fields :=
  h.imp fun _ _ h => ⟨h.1, hw.thunks _ _ h.2⟩

end World

variable {answers : Answers}

/-- All derivations of at least some height find this. -/
def Settles {α : Type} (y : Nat → Evaluation α) (r : Except Halt α) : Prop :=
  ∃ enough, ∀ height, enough ≤ height → y height = some r

inductive Goal where
  | value (e : Expr) (env : Env)
  | completion (form : Form)

/-- A delayed expression stands for the expression `e` in `env`. If it is forced, so does its value;
if it is being forced, it is one of the goals. -/
structure StandsFor (answers : Answers) (goals : Goal → Prop) (w : World) (thunk : Thunk)
    (e : Expr) (env : Env) : Prop where
  expr : thunk.expr = e
  scope : w.Reads thunk.scope env
  forced : ∀ d, thunk.state = .forced d →
    ∃ form, w.Stands d form ∧ Settles (fun n => evaluate answers n env e) (.ok form)
  forcing : thunk.state = .forcing → goals (.value e env)

theorem StandsFor.mono {goals : Goal → Prop} {w later : World} (hw : w.Grows later)
    {thunk : Thunk} {e : Expr} {env : Env} (h : StandsFor answers goals w thunk e env) :
    StandsFor answers goals later thunk e env where
  expr := h.expr
  scope := h.scope.mono hw
  forced d hd :=
    let ⟨form, hs, hy⟩ := h.forced d hd
    ⟨form, hs.mono hw, hy⟩
  forcing := h.forcing

structure Backs (answers : Answers) (goals : Goal → Prop) (w : World) (h : Heap) : Prop where
  thunks_size : w.thunks.length = h.thunks.size
  records_size : w.records.length = h.records.size
  closures_size : w.closures.length = h.closures.size
  thunk : ∀ {id e env}, w.thunks[ThunkId.index id]? = some (e, env) →
    StandsFor answers goals w (h.thunk id) e env
  record : ∀ {id fields env}, w.records[RecordId.index id]? = some (.record fields env) →
    w.Holds (.record fields env) (h.record id) fields
  closure : ∀ {id name params body env},
    w.closures[ClosureId.index id]? = some (.closure name params body env) →
    ∃ scope, h.closure id = ⟨name, params, body, scope⟩ ∧ w.Reads scope env

structure Models (answers : Answers) (goals : Goal → Prop) (w : World) (h : Heap) : Prop
    extends Backs answers goals w h where
  frames_size : w.frames.length = h.frames.size
  frame : ∀ {id env}, w.frames[FrameId.index id]? = some env →
    ∀ slot, w.Bound ((h.frame id).lookup slot) (env.own slot)

variable {goals : Goal → Prop} {w : World} {h : Heap}

theorem Models.with_thunks {goals' : Goal → Prop} {thunks : Array Thunk}
    (hm : Models answers goals w h) (hs : thunks.size = h.thunks.size)
    (ht : ∀ {id e env}, w.thunks[ThunkId.index id]? = some (e, env) →
      StandsFor answers goals' w (Heap.thunk { h with thunks } id) e env) :
    Models answers goals' w { h with thunks } where
  thunks_size := hm.thunks_size.trans hs.symm
  records_size := hm.records_size
  closures_size := hm.closures_size
  frames_size := hm.frames_size
  frame := hm.frame
  record := hm.record
  closure := hm.closure
  thunk := ht

theorem Env.lookup_eq {env : Env} (hn : env ≠ .nil) (slot : Slot) :
    env.lookup slot = (env.own slot).or (env.outer.lookup slot) := by
  cases env with
  | nil => contradiction
  | _ => rfl

theorem Models.lookup (hm : Models answers goals w h) {scope : Scope} {env : Env}
    (hr : w.Reads scope env) (slot : Slot) :
    w.Bound (h.lookup slot scope) (env.lookup slot) := by
  induction hr with
  | nil => exact .none
  | @cons frame outer env hf hn _ ih =>
    have hb := hm.frame hf slot
    rw [Env.lookup_eq hn]
    simp only [Heap.lookup]
    cases hl : (h.frame frame).lookup slot with
    | none =>
      rw [hl] at hb
      cases ho : env.own slot with
      | none => exact ih
      | some found =>
        rw [ho] at hb
        cases hb
    | some binding =>
      rw [hl] at hb
      cases ho : env.own slot with
      | none =>
        rw [ho] at hb
        cases hb
      | some found =>
        rw [ho] at hb
        exact hb

theorem Models.field? (hm : Models answers goals w h) {id : RecordId} {fields : List Field}
    {env : Env} (hr : w.records[id.index]? = some (.record fields env)) (name : String) :
    (h.field? id name = none ∧ (fields.find? fun f => f.name == name) = none) ∨
    ∃ thunk field, h.field? id name = some thunk ∧
      (fields.find? fun f => f.name == name) = some field ∧
      w.thunks[thunk.index]? = some (field.value, .record fields env) := by
  have hf := hm.record hr
  clear hr
  unfold Heap.field?
  generalize h.record id = entries at hf ⊢
  generalize Env.record fields env = inner at hf ⊢
  induction hf with
  | nil => exact .inl ⟨rfl, rfl⟩
  | @cons entry field entries fields hh _ ih =>
    simp only [List.find?_cons, hh.1]
    cases field.name == name with
    | true => exact .inr ⟨entry.2, field, rfl, rfl, hh.2⟩
    | false => exact ih

end ByName

end Inquiry
