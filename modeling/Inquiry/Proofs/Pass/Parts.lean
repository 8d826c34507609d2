import Inquiry.Expr.Questions
import Inquiry.Proofs.Pass.Heredity
set_option autoImplicit false

namespace Inquiry

def Expr.parts : Expr → List Expr
  | .record fields => fields.map Field.value
  | .function _ _ body => [body]
  | .block body => body.map Stmt.value
  | e => e.operands

/-- Whether an expression occurs in another, or is the same. -/
inductive Expr.PartOf (whole : Expr) : Expr → Prop where
  | refl : PartOf whole whole
  | inside {e part : Expr} (h : PartOf whole e) (hp : part ∈ e.parts) : PartOf whole part

theorem Expr.mem_parts_of_operands {e part : Expr} (hp : part ∈ e.operands) : part ∈ e.parts := by
  cases e with
  | record | function | block => contradiction
  | _ => exact hp

theorem Expr.mentionsAll_eq (es : List Expr) : Expr.mentionsAll es = es.flatMap Expr.mentions :=
  eq_flatMap rfl (fun _ _ => rfl) es

theorem Field.mentionsAll_eq (fields : List Field) :
    Field.mentionsAll fields = fields.flatMap fun field => field.value.mentions :=
  eq_flatMap rfl (fun ⟨_, _, _⟩ _ => rfl) fields

theorem Stmt.mentionsAll_eq (body : List Stmt) :
    Stmt.mentionsAll body = body.flatMap fun stmt => stmt.value.mentions :=
  eq_flatMap rfl (fun stmt _ => by cases stmt <;> rfl) body

theorem Expr.mentions_parts {e part : Expr} (hp : part ∈ e.parts) :
    part.mentions ⊆ e.mentions := by
  intro question hq
  cases e <;> simp only [parts, operands, List.mem_cons, List.mem_map, List.not_mem_nil,
    or_false] at hp
  case record =>
    rw [mentions, Field.mentionsAll_eq]
    obtain ⟨field, hf, rfl⟩ := hp
    exact List.mem_flatMap.mpr ⟨field, hf, hq⟩
  case block =>
    rw [mentions, Stmt.mentionsAll_eq]
    obtain ⟨stmt, hs, rfl⟩ := hp
    exact List.mem_flatMap.mpr ⟨stmt, hs, hq⟩
  case call =>
    simp only [mentions, mentionsAll_eq, List.mem_append, List.mem_flatMap]
    grind
  all_goals grind [mentions]

theorem Expr.PartOf.mentions_subset {whole e : Expr} (h : whole.PartOf e) :
    e.mentions ⊆ whole.mentions := by
  induction h with
  | refl => exact List.Subset.refl _
  | inside _ hp ih => exact List.Subset.trans (Expr.mentions_parts hp) ih

/-- The parts of a part are parts. -/
theorem hereditary_partOf (whole : Expr) : Hereditary fun _ e => whole.PartOf e where
  mono h _ := h
  operand h _ hp := h.inside (Expr.mem_parts_of_operands hp)
  record h _ hf := h.inside (List.mem_map_of_mem hf)
  function h := h.inside List.mem_cons_self
  block h _ hs := h.inside (List.mem_map_of_mem hs)

def Task.exprs : Task → List Expr
  | .binaryRight _ right _ | .logicalRight _ right _ => [right]
  | .branch consequent alternate _ => [consequent, alternate]
  | .callee args _ => args
  | _ => []

def Standing.exprs : Standing → List Expr
  | .running (.eval e _) => [e]
  | .parked question => [.input question]
  | _ => []

def Heap.exprs (h : Heap) : List Expr :=
  h.thunks.toList.map Thunk.expr ++ h.closures.toList.map Closure.expr

def Machine.exprs (m : Machine) : List Expr := m.heap.exprs ++ m.stack.flatMap Task.exprs

variable {whole : Expr}

theorem Task.Inherits.partOf {h : Heap} {task : Task}
    (ht : task.Inherits (fun _ e => whole.PartOf e) h) : ∀ e ∈ task.exprs, whole.PartOf e := by
  cases task with
  | binaryRight | logicalRight => exact List.forall_mem_singleton.mpr ht
  | branch => exact List.forall_mem_cons.mpr ⟨ht.1, List.forall_mem_singleton.mpr ht.2⟩
  | callee => exact ht
  | _ => simp [exprs]

theorem Machine.Inherits.partOf {m : Machine} (hm : m.Inherits fun _ e => whole.PartOf e) :
    ∀ e ∈ m.exprs, whole.PartOf e := by
  intro e he
  simp only [exprs, Heap.exprs, List.mem_append, List.mem_map, Array.mem_toList_iff,
    List.mem_flatMap] at he
  rcases he with (⟨thunk, ht, rfl⟩ | ⟨closure, hc, rfl⟩) | ⟨task, ht, he⟩
  · exact hm.heap.thunk thunk ht
  · exact hm.heap.closure closure hc
  · exact (hm.stack task ht).partOf e he

theorem Standing.Inherits.partOf {h : Heap} {standing : Standing}
    (hs : standing.Inherits (fun _ e => whole.PartOf e) h) :
    ∀ e ∈ standing.exprs, whole.PartOf e := by
  cases standing with
  | running control =>
    cases control with
    | eval e scope => exact List.forall_mem_singleton.mpr hs
    | give d => simp [exprs]
  | parked question =>
    obtain ⟨_, hq⟩ := hs
    exact List.forall_mem_singleton.mpr hq
  | finished d => simp [exprs]

namespace Pass

variable {captureTrace : Bool} {program : Program} {m : Machine} {question : Question}

/-- All that a pass holds is part of the program. -/
theorem Reaches.partOf {standing : Standing} (h : Reaches captureTrace program standing m) :
    ∀ e ∈ standing.exprs ++ m.exprs, (Expr.block program.body).PartOf e := by
  obtain ⟨hm, hs⟩ := h.inherits (hereditary_partOf _) .refl
  intro e he
  rcases List.mem_append.mp he with he | he
  · exact hs.partOf e he
  · exact hm.partOf e he

/-- A pass is parked on a question that the program mentions. -/
theorem Reaches.mem_mentions (h : Reaches captureTrace program (.parked question) m) :
    question ∈ Stmt.mentionsAll program.body := by
  have hpart := h.partOf (.input question) (List.mem_append_left _ List.mem_cons_self)
  exact hpart.mentions_subset List.mem_cons_self

theorem Reached.mem_mentions {pass : Pass} (h : pass.Reached captureTrace program)
    (ho : pass.outcome = .parked question) : question ∈ Stmt.mentionsAll program.body :=
  (h.parked ho).mem_mentions

end Pass

end Inquiry
