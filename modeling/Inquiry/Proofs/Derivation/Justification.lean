import Inquiry.Answers
import Inquiry.Arithmetic
import Inquiry.Proofs.Derivation.Forest
set_option autoImplicit false

namespace Inquiry

/-- Whether the rule leads from the values of its premises, in the order of evaluation, to its
own value. -/
def Rule.Justified (answers : Answers) : Rule → List Summary → Prop
  | .literal _, [] => True
  | .input question v, [] => ∃ a, answers.get? question = some a ∧ v = a.summary
  | .name _ false _, [] => True
  | .name _ true v, [derivation] => v = derivation
  | .binary op v, [left, right] =>
    ∃ a b c : Answer, left = a.summary ∧ right = b.summary ∧
      op.apply a.datum b.datum = .ok c.datum ∧ v = c.summary
  | .unary op v, [operand] =>
    ∃ a c : Answer, operand = a.summary ∧ op.apply a.datum = .ok c.datum ∧ v = c.summary
  | .logical op false v, [left] => left = .boolean op.decider ∧ v = left
  | .logical op true v, [left, right] =>
    left = .boolean (!op.decider) ∧ (∃ b, right = .boolean b) ∧ v = right
  | .conditional consequent v, [predicate, branch] => predicate = .boolean consequent ∧ v = branch
  | .access field false _, [base] => ∃ names, base = .record names ∧ field ∈ names
  | .access field true v, [base, derivation] =>
    (∃ names, base = .record names ∧ field ∈ names) ∧ v = derivation
  | .block false v, [] => v = .undefined
  | .block true v, [body] => v = body
  | .call v, [callee, body] => (∃ name, callee = .function name) ∧ v = body
  | .record fields v, source :: values =>
    source = .record fields ∧ v = .record fields ∧ values.length = fields.length
  | _, _ => False

theorem Rule.Justified.length_eq {answers : Answers} {rule : Rule} {premises : List Summary}
    (h : rule.Justified answers premises) : premises.length = rule.arity := by
  unfold Rule.Justified at h
  split at h <;> simp_all [Rule.arity, Nat.add_comm]

/-- Each node comes after its premises and is justified by their values. -/
def AllJustified (answers : Answers) (nodes : Array Node) : Prop :=
  ∀ (i : Nat) (node : Node), nodes[i]? = some node →
    (∀ child ∈ node.children, child < i) ∧
      node.rule.Justified answers (node.children.map (valueAt nodes))

def Trace.Justified (answers : Answers) (t : Trace) : Prop := AllJustified answers t.nodes

theorem valueAt_push {nodes : Array Node} {i : Nat} (node : Node) (hi : i < nodes.size) :
    valueAt (nodes.push node) i = valueAt nodes i := by
  simp [valueAt, Array.getElem?_push, Nat.ne_of_lt hi]

theorem valueAt_push_size (nodes : Array Node) (node : Node) :
    valueAt (nodes.push node) nodes.size = node.rule.value := by simp [valueAt]

theorem map_valueAt_push {nodes : Array Node} {is : List Nat} (node : Node)
    (hi : ∀ i ∈ is, i < nodes.size) :
    is.map (valueAt (nodes.push node)) = is.map (valueAt nodes) := by
  apply List.map_congr_left
  intro i hm
  exact valueAt_push node (hi i hm)

structure Forest.Justified (answers : Answers) (forest : Forest) : Prop where
  roots : ∀ i ∈ forest.roots, i < forest.nodes.size
  nodes : AllJustified answers forest.nodes

namespace Forest.Justified

variable {answers : Answers} {forest : Forest} {rule : Rule} {premises values : List Summary}

theorem empty : Forest.Justified answers ⟨#[], []⟩ :=
  ⟨by simp, by intro i node h; simp at h⟩

theorem values_add (h : forest.Justified answers) (hr : rule.Justified answers premises.reverse)
    (hv : forest.values = premises ++ values) :
    (forest.add rule).values = rule.value :: values := by
  have hl : rule.arity = premises.length := by simpa using hr.length_eq.symm
  have hroots : ∀ i ∈ forest.roots.drop rule.arity, i < forest.nodes.size :=
    fun i hi => h.roots i (List.mem_of_mem_drop hi)
  have hdrop : (forest.roots.drop rule.arity).map (valueAt forest.nodes) = values := by
    rw [List.map_drop, ← Forest.values, hv, List.drop_left' hl.symm]
  simp only [Forest.values, add, List.map_cons, valueAt_push_size, map_valueAt_push _ hroots, hdrop]

theorem add (h : forest.Justified answers) (hr : rule.Justified answers premises.reverse)
    (hv : forest.values = premises ++ values) : (forest.add rule).Justified answers := by
  have hl : rule.arity = premises.length := by simpa using hr.length_eq.symm
  have hroots : ∀ i ∈ (forest.roots.take rule.arity).reverse, i < forest.nodes.size := by
    intro i hi
    exact h.roots i (List.mem_of_mem_take (List.mem_reverse.mp hi))
  have htake : (forest.roots.take rule.arity).reverse.map (valueAt forest.nodes) =
      premises.reverse := by
    rw [List.map_reverse, List.map_take, ← Forest.values, hv, List.take_left' hl.symm]
  constructor
  · intro i hi
    simp only [Forest.add, List.mem_cons, Array.size_push] at hi ⊢
    rcases hi with rfl | hi
    · omega
    · have hlt := h.roots i (List.mem_of_mem_drop hi)
      omega
  · intro i node hn
    simp only [Forest.add, Array.getElem?_push] at hn ⊢
    split at hn
    · rename_i hi
      subst hi
      simp only [Option.some.injEq] at hn
      subst hn
      refine ⟨hroots, ?_⟩
      rw [map_valueAt_push _ hroots, htake]
      exact hr
    · obtain ⟨hlt, hj⟩ := h.nodes i node hn
      have hi : i < forest.nodes.size := (Array.getElem?_eq_some_iff.mp hn).1
      have hchildren : ∀ child ∈ node.children, child < forest.nodes.size :=
        fun child hc => Nat.lt_trans (hlt child hc) hi
      refine ⟨hlt, ?_⟩
      rw [map_valueAt_push _ hchildren]
      exact hj

end Forest.Justified

end Inquiry
