import Inquiry.Proofs.Derivation.Forest
set_option autoImplicit false

/-!
Derivations as trees. A tree has its rules and its nodes in post-order, and several trees make a
forest to which a rule is added as one more tree over the newest.
-/

namespace Inquiry

/-- A rule with a derivation of each of its premises. -/
inductive Derivation where
  | infer (rule : Rule) (premises : Fin rule.arity → Derivation)

/-- The node refers to as many nodes as its rule rests on. -/
def Node.Complete (node : Node) : Prop := node.children.length = node.rule.arity

/-- Nodes, as they are listed from a given position on. -/
abbrev Layout := Nat → List Node

namespace Layout

def joined : List Layout → Layout
  | [], _ => []
  | layout :: rest, start => layout start ++ joined rest (start + (layout start).length)

/-- The position of the last node of each layout, if they are joined. -/
def ends : List Layout → Nat → List Nat
  | [], _ => []
  | layout :: rest, start =>
    let next := start + (layout start).length
    (next - 1) :: ends rest next

end Layout

namespace Derivation

def rule : Derivation → Rule
  | infer rule _ => rule

def premises : Derivation → List Derivation
  | infer _ premises => List.ofFn premises

def rules : Derivation → List Rule
  | infer rule premises => (List.ofFn fun i => (premises i).rules).flatten ++ [rule]

def size (t : Derivation) : Nat := t.rules.length

def tokens (t : Derivation) : List Token := t.rules.flatMap Rule.tokens

/-- The nodes in post-order, which refer to each other by position. -/
def layout : Derivation → Layout
  | infer rule premises => fun start =>
    let parts := List.ofFn fun i => (premises i).layout
    Layout.joined parts start ++ [⟨rule, Layout.ends parts start⟩]

def layoutAll (trees : List Derivation) : Layout := Layout.joined (trees.map layout)

def rootsAll (trees : List Derivation) (start : Nat) : List Nat :=
  Layout.ends (trees.map layout) start

def infer? (rule : Rule) (premises : List Derivation) : Option Derivation :=
  if h : premises.length = rule.arity then some (infer rule fun i => premises[i]) else none

theorem infer?_premises (t : Derivation) : infer? t.rule t.premises = some t := by
  obtain ⟨rule, premises⟩ := t
  simp [infer?, Derivation.rule, Derivation.premises]

theorem exists_infer {rule : Rule} {premises : List Derivation}
    (h : premises.length = rule.arity) :
    ∃ t : Derivation, t.rule = rule ∧ t.premises = premises := by
  refine ⟨infer rule fun i => premises[i], rfl, ?_⟩
  apply List.ext_getElem <;> simp [Derivation.premises, h]

theorem exists_of_arity_le {rule : Rule} {trees : List Derivation}
    (h : rule.arity ≤ trees.length) :
    ∃ (before : List Derivation) (t : Derivation), t.rule = rule ∧
      trees = before ++ t.premises := by
  have hlength : (trees.drop (trees.length - rule.arity)).length = rule.arity := by
    rw [List.length_drop]
    omega
  obtain ⟨t, rfl, ht⟩ := exists_infer hlength
  exact ⟨trees.take (trees.length - t.rule.arity), t, rfl, by rw [ht, List.take_append_drop]⟩

theorem induction {p : Derivation → Prop} (h : ∀ t, (∀ s ∈ t.premises, p s) → p t)
    (t : Derivation) : p t := by
  induction t with
  | infer rule premises ih =>
    apply h
    intro s hs
    obtain ⟨i, rfl⟩ := List.mem_ofFn.mp hs
    exact ih i

@[simp] theorem length_premises (t : Derivation) : t.premises.length = t.rule.arity := by
  cases t
  simp [premises, rule]

theorem rules_eq (t : Derivation) : t.rules = t.premises.flatMap rules ++ [t.rule] := by
  cases t
  simp [rules, premises, rule, List.flatMap_def, Function.comp_def]

theorem tokens_eq (t : Derivation) :
    t.tokens = t.premises.flatMap tokens ++ t.rule.tokens := by
  rw [tokens, t.rules_eq, List.flatMap_append, List.flatMap_assoc, List.flatMap_singleton]
  rfl

theorem layout_eq (t : Derivation) (start : Nat) :
    t.layout start =
      layoutAll t.premises start ++ [⟨t.rule, rootsAll t.premises start⟩] := by
  cases t
  simp [layout, layoutAll, rootsAll, premises, rule, Function.comp_def]

theorem map_rule_layoutAll {trees : List Derivation}
    (h : ∀ t ∈ trees, ∀ start, (t.layout start).map Node.rule = t.rules) (start : Nat) :
    (layoutAll trees start).map Node.rule = trees.flatMap rules := by
  induction trees generalizing start with
  | nil => rfl
  | cons t trees ih =>
    have ht := h t (by simp) start
    have htrees := ih (fun s hs => h s (by simp [hs])) (start + (t.layout start).length)
    rw [List.flatMap_cons, ← ht, ← htrees, ← List.map_append]
    rfl

theorem map_rule_layout (t : Derivation) (start : Nat) :
    (t.layout start).map Node.rule = t.rules := by
  induction t using Derivation.induction generalizing start with
  | h t ih => rw [t.layout_eq, List.map_append, map_rule_layoutAll ih, t.rules_eq]; rfl

@[simp] theorem length_layout (t : Derivation) (start : Nat) :
    (t.layout start).length = t.size := by
  rw [size, ← t.map_rule_layout start, List.length_map]

theorem size_pos (t : Derivation) : 0 < t.size := by
  rw [size, t.rules_eq]
  simp

@[simp] theorem layoutAll_nil (start : Nat) : layoutAll [] start = [] := rfl

@[simp] theorem rootsAll_nil (start : Nat) : rootsAll [] start = [] := rfl

theorem layoutAll_cons (t : Derivation) (trees : List Derivation) (start : Nat) :
    layoutAll (t :: trees) start = t.layout start ++ layoutAll trees (start + t.size) := by
  rw [← t.length_layout start]
  rfl

theorem rootsAll_cons (t : Derivation) (trees : List Derivation) (start : Nat) :
    rootsAll (t :: trees) start =
      (start + t.size - 1) :: rootsAll trees (start + t.size) := by
  rw [← t.length_layout start]
  rfl

theorem length_layoutAll_premises (t : Derivation) (start : Nat) :
    (layoutAll t.premises start).length = t.size - 1 := by
  rw [← t.length_layout start, t.layout_eq, List.length_append]
  rfl

@[simp] theorem length_rootsAll (trees : List Derivation) (start : Nat) :
    (rootsAll trees start).length = trees.length := by
  induction trees generalizing start with
  | nil => rfl
  | cons t trees ih => simp [rootsAll_cons, ih]

theorem complete_of_mem_layoutAll {trees : List Derivation} {node : Node}
    (ih : ∀ t ∈ trees, ∀ start, node ∈ t.layout start → node.Complete) {start : Nat}
    (h : node ∈ layoutAll trees start) : node.Complete := by
  induction trees generalizing start with
  | nil => contradiction
  | cons t trees iht =>
    rw [layoutAll_cons] at h
    rcases List.mem_append.mp h with h | h
    · exact ih t List.mem_cons_self start h
    · exact iht (fun s hs => ih s (List.mem_cons_of_mem _ hs)) h

theorem complete_of_mem_layout {t : Derivation} {start : Nat} {node : Node}
    (h : node ∈ t.layout start) : node.Complete := by
  induction t using Derivation.induction generalizing start with
  | h t ih =>
    rw [t.layout_eq] at h
    rcases List.mem_append.mp h with h | h
    · exact complete_of_mem_layoutAll (fun s hs start => ih s hs) h
    · rw [List.mem_singleton.mp h]
      simp [Node.Complete]

theorem layoutAll_append (before after : List Derivation) (start : Nat) :
    layoutAll (before ++ after) start =
      layoutAll before start ++ layoutAll after (start + (layoutAll before start).length) := by
  induction before generalizing start with
  | nil => rfl
  | cons t before ih => simp [layoutAll_cons, ih, Nat.add_assoc]

theorem rootsAll_append (before after : List Derivation) (start : Nat) :
    rootsAll (before ++ after) start =
      rootsAll before start ++ rootsAll after (start + (layoutAll before start).length) := by
  induction before generalizing start with
  | nil => rfl
  | cons t before ih => simp [layoutAll_cons, rootsAll_cons, ih, Nat.add_assoc]

/-- The trace of a derivation: its nodes in post-order, the root last. -/
def trace (t : Derivation) : Trace := ⟨some (t.size - 1), (t.layout 0).toArray⟩

end Derivation

open Inquiry.Derivation

/-- The forest of these trees, the newest last. -/
def Forest.of (trees : List Derivation) : Forest :=
  ⟨(layoutAll trees 0).toArray, (rootsAll trees 0).reverse⟩

namespace Forest

@[simp] theorem length_roots_of (trees : List Derivation) :
    (of trees).roots.length = trees.length := by simp [of]

theorem of_singleton (t : Derivation) : of [t] = ⟨(t.layout 0).toArray, [t.size - 1]⟩ := by
  simp [of, layoutAll_cons, rootsAll_cons]

theorem add_of (trees : List Derivation) (t : Derivation) :
    (of (trees ++ t.premises)).add t.rule = of (trees ++ [t]) := by
  have hroots : (of (trees ++ t.premises)).roots =
      (rootsAll t.premises (layoutAll trees 0).length).reverse ++ (of trees).roots := by
    simp [of, rootsAll_append]
  have htake : (of (trees ++ t.premises)).roots.take t.rule.arity =
      (rootsAll t.premises (layoutAll trees 0).length).reverse := by simp [hroots]
  have hdrop : (of (trees ++ t.premises)).roots.drop t.rule.arity = (of trees).roots := by
    simp [hroots]
  have hlength : (layoutAll trees 0).length + t.size - 1 =
      (layoutAll (trees ++ t.premises) 0).length := by
    have hpos := t.size_pos
    rw [layoutAll_append, List.length_append, length_layoutAll_premises]
    omega
  simp only [add, htake, hdrop, List.reverse_reverse]
  simp [of, layoutAll_append, rootsAll_append, layoutAll_cons, rootsAll_cons, t.layout_eq, hlength]

end Forest

end Inquiry
