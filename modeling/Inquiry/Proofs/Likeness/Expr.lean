import Mathlib.Data.List.Forall2
import Inquiry.Proofs.Recasting.Heap
set_option autoImplicit false

/-!
Expressions that differ only in declarations that do not count. Of a block counts what it ends with
and, of each slot that is named anywhere, the last declaration.
-/

namespace Inquiry

/-- The declaration of a slot that counts, which is the last. -/
def Stmt.declared? (id : Nat) : List Stmt → Option (Slot × Expr)
  | [] => none
  | .expr _ :: rest => declared? id rest
  | .bind slot value :: rest =>
    (declared? id rest).or (if slot.id = id then some (slot, value) else none)

/-- The expressions are the same but for the statements of their blocks, and these declare the same
slots among those that are named, each with what is alike. -/
inductive Expr.Alike (named : Nat → Prop) : Expr → Expr → Prop where
  | number (n : Int64) : Alike named (.number n) (.number n)
  | boolean (b : Bool) : Alike named (.boolean b) (.boolean b)
  | input (question : Question) : Alike named (.input question) (.input question)
  | record {fields fields' : List Field} (hn : fields.map Field.name = fields'.map Field.name)
      (hs : fields.map Field.slot = fields'.map Field.slot)
      (hv : List.Forall₂ (Alike named) (fields.map Field.value) (fields'.map Field.value)) :
      Alike named (.record fields) (.record fields')
  | function (name : Option String) (params : List Slot) {body body' : Expr}
      (hb : Alike named body body') :
      Alike named (.function name params body) (.function name params body')
  | name {slot : Slot} (hn : named slot.id) : Alike named (.name slot) (.name slot)
  | binary (op : BinOp) {left left' right right' : Expr} (hl : Alike named left left')
      (hr : Alike named right right') :
      Alike named (.binary op left right) (.binary op left' right')
  | unary (op : UnaryOp) {operand operand' : Expr} (ho : Alike named operand operand') :
      Alike named (.unary op operand) (.unary op operand')
  | logical (op : LogicalOp) {left left' right right' : Expr} (hl : Alike named left left')
      (hr : Alike named right right') :
      Alike named (.logical op left right) (.logical op left' right')
  | conditional {predicate predicate' consequent consequent' alternate alternate' : Expr}
      (hp : Alike named predicate predicate') (hc : Alike named consequent consequent')
      (ha : Alike named alternate alternate') :
      Alike named (.conditional predicate consequent alternate)
        (.conditional predicate' consequent' alternate')
  | access {base base' : Expr} (hb : Alike named base base') (field : String) :
      Alike named (.access base field) (.access base' field)
  | block {body body' : List Stmt} (he : body = [] ↔ body' = [])
      (hl : Option.Rel (Alike named) (Stmt.lastExpr? body) (Stmt.lastExpr? body'))
      (hs : ∀ id, named id →
        (Stmt.declared? id body).map Prod.fst = (Stmt.declared? id body').map Prod.fst)
      (hv : ∀ id, named id → Option.Rel (Alike named) ((Stmt.declared? id body).map Prod.snd)
        ((Stmt.declared? id body').map Prod.snd)) :
      Alike named (.block body) (.block body')
  | call {callee callee' : Expr} {args args' : List Expr} (hc : Alike named callee callee')
      (ha : List.Forall₂ (Alike named) args args') :
      Alike named (.call callee args) (.call callee' args')

theorem Expr.Alike.isFunction_eq {named : Nat → Prop} {e e' : Expr} (h : e.Alike named e') :
    e.isFunction = e'.isFunction := by cases h <;> rfl

theorem Expr.Alike.isEmpty_eq {named : Nat → Prop} {body body' : List Stmt}
    (h : (Expr.block body).Alike named (.block body')) : body.isEmpty = body'.isEmpty := by
  cases h with
  | block he => exact Bool.eq_iff_iff.mpr (by rw [List.isEmpty_iff, List.isEmpty_iff, he])

namespace Stmt

theorem mem_of_declared? {id : Nat} {body : List Stmt} {slot : Slot} {value : Expr}
    (h : declared? id body = some (slot, value)) : .bind slot value ∈ body := by
  induction body with
  | nil => cases h
  | cons stmt rest ih =>
    cases stmt with
    | expr => exact List.mem_cons_of_mem _ (ih h)
    | bind other e =>
      rcases Option.or_eq_some_iff.mp h with h | ⟨_, h⟩
      · exact List.mem_cons_of_mem _ (ih h)
      · split at h
        · cases h
          exact List.mem_cons_self
        · cases h

theorem declared?_recast {r : Recasting} (hr : ∀ slot, r.slot slot = slot) (id : Nat)
    (body : List Stmt) : declared? id (body.map (Stmt.recast r)) =
      (declared? id body).map fun declaration => (declaration.1, declaration.2.recast r) := by
  induction body with
  | nil => rfl
  | cons stmt rest ih =>
    cases stmt with
    | expr => exact ih
    | bind slot value =>
      simp only [List.map_cons, recast, declared?, ih, hr, Option.map_or]
      split <;> rfl

end Stmt

namespace Field

variable {r : Recasting}

theorem names_recast (fields : List Field) :
    (fields.map (recast r)).map name = fields.map name := by
  rw [List.map_map]
  exact List.map_congr_left fun ⟨_, _, _⟩ _ => rfl

theorem slots_recast (hr : ∀ slot, r.slot slot = slot) (fields : List Field) :
    (fields.map (recast r)).map slot = fields.map slot := by
  rw [List.map_map]
  exact List.map_congr_left fun ⟨_, slot, _⟩ _ => hr slot

theorem values_recast (fields : List Field) :
    (fields.map (recast r)).map value = (fields.map value).map (Expr.recast r) := by
  rw [List.map_map, List.map_map]
  exact List.map_congr_left fun ⟨_, _, _⟩ _ => rfl

end Field

theorem Option.rel_map {α β γ : Type} {R : β → γ → Prop} {f : α → β} {g : α → γ} {x : Option α}
    (h : ∀ a, x = some a → R (f a) (g a)) : Option.Rel R (x.map f) (x.map g) := by
  cases x with
  | none => exact .none
  | some a => exact .some (h a rfl)

namespace Expr

variable {named : Nat → Prop} {r r' : Recasting}

theorem PartOf.trans {whole e other : Expr} (h : whole.PartOf e) (ho : e.PartOf other) :
    whole.PartOf other := by
  induction ho with
  | refl => exact h
  | inside _ hp ih => exact ih.inside hp

theorem recast_mem_parts {e part : Expr} (hp : part ∈ e.parts) :
    part.recast r ∈ (e.recast r).parts := by
  cases e with
  | record fields =>
    obtain ⟨⟨name, slot, value⟩, hf, rfl⟩ := List.mem_map.mp hp
    rw [recast_record]
    exact List.mem_map_of_mem (List.mem_map_of_mem hf)
  | block body =>
    obtain ⟨stmt, hs, rfl⟩ := List.mem_map.mp hp
    rw [recast_block]
    refine List.mem_map.mpr ⟨stmt.recast r, List.mem_map_of_mem hs, ?_⟩
    cases stmt <;> rfl
  | call callee args =>
    rw [recast_call]
    exact List.mem_map_of_mem hp
  | name slot => cases hp
  | _ => exact List.mem_map_of_mem hp

theorem PartOf.recast {whole e : Expr} (h : whole.PartOf e) :
    (whole.recast r).PartOf (e.recast r) := by
  induction h with
  | refl => exact .refl
  | inside _ hp ih => exact ih.inside (recast_mem_parts hp)

/-- Names that become what is alike make expressions alike. -/
theorem alike_recast (hr : ∀ slot, r.slot slot = slot) (hr' : ∀ slot, r'.slot slot = slot)
    {e : Expr} (hn : ∀ slot, e.PartOf (.name slot) → (r.name slot).Alike named (r'.name slot)) :
    (e.recast r).Alike named (e.recast r') := by
  induction e using Expr.partsInduction with
  | h e ih =>
    replace ih : ∀ part ∈ e.parts, (part.recast r).Alike named (part.recast r') :=
      fun part hp => ih part hp fun slot hs => hn slot ((PartOf.refl.inside hp).trans hs)
    cases e with
    | number n => exact .number n
    | boolean b => exact .boolean b
    | input question => exact .input question
    | name slot => exact hn slot .refl
    | record fields =>
      rw [recast_record, recast_record]
      refine .record (by rw [Field.names_recast, Field.names_recast])
        (by rw [Field.slots_recast hr, Field.slots_recast hr']) ?_
      rw [Field.values_recast, Field.values_recast, List.forall₂_map_left_iff,
        List.forall₂_map_right_iff]
      exact List.forall₂_same.mpr ih
    | function name params body =>
      simp only [recast, map_eq_self fun slot _ => hr slot, map_eq_self fun slot _ => hr' slot]
      exact .function name params (ih body List.mem_cons_self)
    | binary op left right =>
      exact .binary op (ih left (by simp [parts, operands])) (ih right (by simp [parts, operands]))
    | unary op operand => exact .unary op (ih operand (by simp [parts, operands]))
    | logical op left right =>
      exact .logical op (ih left (by simp [parts, operands])) (ih right (by simp [parts, operands]))
    | conditional predicate consequent alternate =>
      exact .conditional (ih predicate (by simp [parts, operands]))
        (ih consequent (by simp [parts, operands])) (ih alternate (by simp [parts, operands]))
    | access base field => exact .access (ih base (by simp [parts, operands])) field
    | block body =>
      rw [recast_block, recast_block]
      refine .block (by simp) ?_ (fun id _ => ?_) fun id _ => ?_
      · rw [Stmt.lastExpr?_recast, Stmt.lastExpr?_recast]
        exact Option.rel_map fun e he => ih e (List.mem_map_of_mem (Stmt.mem_of_lastExpr? he))
      · rw [Stmt.declared?_recast hr, Stmt.declared?_recast hr', Option.map_map, Option.map_map]
        rfl
      · rw [Stmt.declared?_recast hr, Stmt.declared?_recast hr', Option.map_map, Option.map_map]
        exact Option.rel_map fun declaration hd =>
          ih declaration.2 (List.mem_map_of_mem (Stmt.mem_of_declared? hd))
    | call callee args =>
      rw [recast_call, recast_call]
      refine .call (ih callee List.mem_cons_self) ?_
      rw [List.forall₂_map_left_iff, List.forall₂_map_right_iff]
      exact List.forall₂_same.mpr fun arg ha => ih arg (List.mem_cons_of_mem _ ha)

theorem alike_self {e : Expr} (hn : ∀ slot, e.PartOf (.name slot) → named slot.id) :
    e.Alike named e := by
  let same : Recasting := ⟨id, .name, id⟩
  have halike : (e.recast same).Alike named (e.recast same) :=
    alike_recast (fun _ => rfl) (fun _ => rfl) fun slot hs => .name (hn slot hs)
  rwa [recast_eq_self (r := same) (fun _ => rfl) fun _ => rfl] at halike

theorem alike_block {body body' : List Stmt} (hb : body ≠ []) (hb' : body' ≠ [])
    (hl : Stmt.lastExpr? body = Stmt.lastExpr? body')
    (hd : ∀ id, named id → Stmt.declared? id body = Stmt.declared? id body')
    (hn : ∀ slot, (Expr.block body).PartOf (.name slot) → named slot.id) :
    (Expr.block body).Alike named (.block body') := by
  have hself : (Expr.block body).Alike named (.block body) := alike_self hn
  cases hself with
  | block _ hlast hslots hvalues =>
    refine .block (by simp [hb, hb']) (hl ▸ hlast) (fun id hi => ?_) fun id hi => ?_
    · rw [hd id hi]
    · rw [← hd id hi]
      exact hvalues id hi

end Expr

end Inquiry
