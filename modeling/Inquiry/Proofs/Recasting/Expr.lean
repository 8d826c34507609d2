import Inquiry.Proofs.Pass.Parts
set_option autoImplicit false

/-!
Expressions recast: the slots that are declared become other slots, and each name becomes an
expression. What is declared or named in an expression can be listed, so that recastings can be
told apart only by what they make of that.
-/

namespace Inquiry

/-- What becomes of the slots that are declared, of the names that are read, and of what a pass
writes down. -/
structure Recasting where
  slot : Slot → Slot
  name : Slot → Expr
  tape : Tape → Tape

variable (r : Recasting)

mutual

def Expr.recast : Expr → Expr
  | .number n => .number n
  | .boolean b => .boolean b
  | .input question => .input question
  | .record fields => .record (Field.recastAll fields)
  | .function name params body => .function name (params.map r.slot) body.recast
  | .name slot => r.name slot
  | .binary op left right => .binary op left.recast right.recast
  | .unary op operand => .unary op operand.recast
  | .logical op left right => .logical op left.recast right.recast
  | .conditional predicate consequent alternate =>
    .conditional predicate.recast consequent.recast alternate.recast
  | .access base field => .access base.recast field
  | .block body => .block (Stmt.recastAll body)
  | .call callee args => .call callee.recast (Expr.recastAll args)
  termination_by structural e => e

def Field.recast : Field → Field
  | .mk name slot value => .mk name (r.slot slot) value.recast
  termination_by structural f => f

def Stmt.recast : Stmt → Stmt
  | .bind slot value => .bind (r.slot slot) value.recast
  | .expr value => .expr value.recast
  termination_by structural s => s

def Expr.recastAll : List Expr → List Expr
  | [] => []
  | e :: es => e.recast :: Expr.recastAll es
  termination_by structural es => es

def Field.recastAll : List Field → List Field
  | [] => []
  | f :: fs => f.recast :: Field.recastAll fs
  termination_by structural fs => fs

def Stmt.recastAll : List Stmt → List Stmt
  | [] => []
  | s :: ss => s.recast :: Stmt.recastAll ss
  termination_by structural ss => ss

end

theorem eq_map {α β : Type} {f : α → β} {all : List α → List β} (hn : all [] = [])
    (hc : ∀ a as, all (a :: as) = f a :: all as) (as : List α) : all as = as.map f := by
  induction as with
  | nil => exact hn
  | cons a as ih => rw [hc, ih, List.map_cons]

theorem map_eq_self {α : Type} {f : α → α} {as : List α} (h : ∀ a ∈ as, f a = a) :
    as.map f = as := (List.map_congr_left h).trans (List.map_id as)

theorem Expr.recast_record (fields : List Field) :
    (Expr.record fields).recast r = .record (fields.map (Field.recast r)) :=
  congrArg Expr.record (eq_map rfl (fun _ _ => rfl) fields)

theorem Expr.recast_block (body : List Stmt) :
    (Expr.block body).recast r = .block (body.map (Stmt.recast r)) :=
  congrArg Expr.block (eq_map rfl (fun _ _ => rfl) body)

theorem Expr.recast_call (callee : Expr) (args : List Expr) :
    (Expr.call callee args).recast r = .call (callee.recast r) (args.map (Expr.recast r)) :=
  congrArg (Expr.call _) (eq_map rfl (fun _ _ => rfl) args)

mutual

def Expr.within : Expr → List Expr
  | .number n => [.number n]
  | .boolean b => [.boolean b]
  | .input question => [.input question]
  | .record fields => .record fields :: Field.withinAll fields
  | .function name params body => .function name params body :: body.within
  | .name slot => [.name slot]
  | .binary op left right => .binary op left right :: (left.within ++ right.within)
  | .unary op operand => .unary op operand :: operand.within
  | .logical op left right => .logical op left right :: (left.within ++ right.within)
  | .conditional predicate consequent alternate =>
    .conditional predicate consequent alternate ::
      (predicate.within ++ consequent.within ++ alternate.within)
  | .access base field => .access base field :: base.within
  | .block body => .block body :: Stmt.withinAll body
  | .call callee args => .call callee args :: (callee.within ++ Expr.withinAll args)
  termination_by structural e => e

def Field.within : Field → List Expr
  | .mk _ _ value => value.within
  termination_by structural f => f

def Stmt.within : Stmt → List Expr
  | .bind _ value => value.within
  | .expr value => value.within
  termination_by structural s => s

def Expr.withinAll : List Expr → List Expr
  | [] => []
  | e :: es => e.within ++ Expr.withinAll es
  termination_by structural es => es

def Field.withinAll : List Field → List Expr
  | [] => []
  | f :: fs => f.within ++ Field.withinAll fs
  termination_by structural fs => fs

def Stmt.withinAll : List Stmt → List Expr
  | [] => []
  | s :: ss => s.within ++ Stmt.withinAll ss
  termination_by structural ss => ss

end

/-- What an expression declares, with what it is bound to where that is part of the expression. -/
def Expr.declarations : Expr → List (Slot × Expr)
  | .block body => Stmt.bindings body
  | _ => []

def Expr.declared : Expr → List Slot
  | .record fields => fields.map Field.slot
  | .function _ params _ => params
  | .block body => (Stmt.bindings body).map Prod.fst
  | _ => []

def Expr.named : Expr → List Slot
  | .name slot => [slot]
  | _ => []

theorem Expr.mem_within_self (e : Expr) : e ∈ e.within := by
  cases e <;> exact List.mem_cons_self

theorem Expr.within_part {e part : Expr} (hp : part ∈ e.parts) : part.within ⊆ e.within := by
  intro other ho
  cases e <;> simp only [parts, operands, List.mem_cons, List.mem_map, List.not_mem_nil,
    or_false] at hp
  case record fields =>
    obtain ⟨field, hf, rfl⟩ := hp
    have hall : Field.withinAll fields = fields.flatMap fun field => field.value.within :=
      eq_flatMap rfl (fun field _ => by cases field; rfl) fields
    rw [within, hall]
    exact List.mem_cons_of_mem _ (List.mem_flatMap.mpr ⟨field, hf, ho⟩)
  case block body =>
    obtain ⟨stmt, hs, rfl⟩ := hp
    have hall : Stmt.withinAll body = body.flatMap fun stmt => stmt.value.within :=
      eq_flatMap rfl (fun stmt _ => by cases stmt <;> rfl) body
    rw [within, hall]
    exact List.mem_cons_of_mem _ (List.mem_flatMap.mpr ⟨stmt, hs, ho⟩)
  case call callee args =>
    have hall : Expr.withinAll args = args.flatMap Expr.within :=
      eq_flatMap rfl (fun _ _ => rfl) args
    simp only [within, hall, List.mem_cons, List.mem_append, List.mem_flatMap]
    grind
  all_goals grind [within]

theorem Expr.PartOf.mem_within {whole e : Expr} (h : whole.PartOf e) : e ∈ whole.within := by
  suffices hsub : e.within ⊆ whole.within from hsub e.mem_within_self
  induction h with
  | refl => exact List.Subset.refl _
  | inside _ hp ih => exact List.Subset.trans (Expr.within_part hp) ih

theorem Expr.sizeOf_part {e part : Expr} (hp : part ∈ e.parts) : sizeOf part < sizeOf e := by
  cases e <;> simp only [parts, operands, List.mem_cons, List.mem_map, List.not_mem_nil,
    or_false] at hp
  case record fields =>
    obtain ⟨field, hf, rfl⟩ := hp
    have hmem := List.sizeOf_lt_of_mem hf
    obtain ⟨name, slot, value⟩ := field
    simp only [Field.mk.sizeOf_spec, Expr.record.sizeOf_spec, Field.value] at hmem ⊢
    omega
  case block body =>
    obtain ⟨stmt, hs, rfl⟩ := hp
    have hmem := List.sizeOf_lt_of_mem hs
    cases stmt <;> simp only [Stmt.bind.sizeOf_spec, Stmt.expr.sizeOf_spec,
      Expr.block.sizeOf_spec, Stmt.value] at hmem ⊢ <;> omega
  case call callee args =>
    simp only [Expr.call.sizeOf_spec]
    rcases hp with rfl | ha
    · omega
    · have hmem := List.sizeOf_lt_of_mem ha
      omega
  all_goals grind

theorem Expr.partsInduction {motive : Expr → Prop}
    (h : ∀ e, (∀ part ∈ e.parts, motive part) → motive e) (e : Expr) : motive e :=
  h e fun part _ => Expr.partsInduction h part
  termination_by sizeOf e
  decreasing_by exact Expr.sizeOf_part ‹_›

variable {r}

/-- Two recastings do the same to an expression if they do the same to its slots. -/
theorem Expr.recast_congr {r' : Recasting} {e : Expr}
    (h : ∀ other ∈ e.within, (∀ slot ∈ other.declared, r.slot slot = r'.slot slot) ∧
      ∀ slot ∈ other.named, r.name slot = r'.name slot) : e.recast r = e.recast r' := by
  induction e using Expr.partsInduction with
  | h e ih =>
    obtain ⟨hslot, hname⟩ := h e e.mem_within_self
    have hparts : ∀ part ∈ e.parts, part.recast r = part.recast r' :=
      fun part hp => ih part hp fun other ho => h other (Expr.within_part hp ho)
    cases e with
    | record fields =>
      rw [recast_record, recast_record]
      refine congrArg Expr.record (List.map_congr_left fun ⟨label, slot, value⟩ hf => ?_)
      have hfield : r.slot slot = r'.slot slot := hslot slot (List.mem_map_of_mem hf)
      have hvalue : value.recast r = value.recast r' := hparts value (List.mem_map_of_mem hf)
      rw [Field.recast, Field.recast, hfield, hvalue]
    | block body =>
      rw [recast_block, recast_block]
      refine congrArg Expr.block (List.map_congr_left fun stmt hs => ?_)
      have hpart := hparts stmt.value (List.mem_map_of_mem hs)
      cases stmt with
      | bind slot value =>
        have hbind : r.slot slot = r'.slot slot :=
          hslot slot (List.mem_map_of_mem (Stmt.mem_bindings hs))
        have hvalue : value.recast r = value.recast r' := hpart
        rw [Stmt.recast, Stmt.recast, hbind, hvalue]
      | expr value => exact congrArg Stmt.expr hpart
    | call callee args =>
      obtain ⟨hcallee, hargs⟩ := List.forall_mem_cons.mp hparts
      rw [recast_call, recast_call, hcallee, List.map_congr_left hargs]
    | function name params body =>
      have hparams : params.map r.slot = params.map r'.slot := List.map_congr_left hslot
      rw [recast, recast, hparams, hparts body List.mem_cons_self]
    | name slot => exact hname slot List.mem_cons_self
    | _ => simp_all [recast, parts, operands]

theorem Expr.recast_eq_self (hslot : ∀ slot, r.slot slot = slot)
    (hname : ∀ slot, r.name slot = .name slot) (e : Expr) : e.recast r = e := by
  induction e using Expr.partsInduction with
  | h e ih =>
    cases e with
    | record fields =>
      rw [recast_record]
      refine congrArg Expr.record (map_eq_self fun ⟨label, slot, value⟩ hf => ?_)
      have hvalue : value.recast r = value := ih value (List.mem_map_of_mem hf)
      rw [Field.recast, hslot, hvalue]
    | block body =>
      rw [recast_block]
      refine congrArg Expr.block (map_eq_self fun stmt hs => ?_)
      have hpart := ih stmt.value (List.mem_map_of_mem hs)
      cases stmt with
      | bind slot value =>
        have hvalue : value.recast r = value := hpart
        rw [Stmt.recast, hslot, hvalue]
      | expr value => exact congrArg Stmt.expr hpart
    | call callee args =>
      obtain ⟨hcallee, hargs⟩ := List.forall_mem_cons.mp ih
      rw [recast_call, hcallee, map_eq_self hargs]
    | function name params body =>
      rw [recast, map_eq_self fun slot _ => hslot slot, ih body List.mem_cons_self]
    | _ => simp_all [recast, parts, operands]

end Inquiry
