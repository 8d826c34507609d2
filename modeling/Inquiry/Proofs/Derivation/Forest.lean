import Inquiry.Derivation.Trace
set_option autoImplicit false

namespace Inquiry

def valueAt (nodes : Array Node) (i : Nat) : Summary :=
  (nodes[i]?.map fun node => node.rule.value).getD .undefined

namespace Forest

def add (forest : Forest) (rule : Rule) : Forest :=
  ⟨forest.nodes.push ⟨rule, (forest.roots.take rule.arity).reverse⟩,
    forest.nodes.size :: forest.roots.drop rule.arity⟩

/-- The values of the roots, the newest first. -/
def values (forest : Forest) : List Summary := forest.roots.map (valueAt forest.nodes)

def questions (forest : Forest) : List String :=
  forest.nodes.toList.filterMap fun node => node.rule.question?

theorem read_append {forest last : Forest} {pending tokens : List Token} (more : List Token)
    (h : forest.read pending tokens = .ok last) :
    forest.read pending (tokens ++ more) = last.read [] more := by
  induction tokens generalizing forest pending with
  | nil =>
    simp only [read] at h
    split at h
    · rename_i hp
      simp only [Except.ok.injEq] at h
      rw [List.isEmpty_iff.mp hp, h, List.nil_append]
    · contradiction
  | cons token tokens ih =>
    cases token with
    | marker kind =>
      simp only [List.cons_append, read] at h ⊢
      cases hc : forest.close kind pending.reverse with
      | error e => simp [hc] at h
      | ok next =>
        simp only [hc] at h ⊢
        exact ih h
    | _ =>
      simp only [List.cons_append, read] at h ⊢
      exact ih h

theorem read_attributes {forest : Forest} {attributes : List Token} (pending rest : List Token)
    (ha : ∀ kind, Token.marker kind ∉ attributes) :
    forest.read pending (attributes ++ rest) =
      forest.read (attributes.reverse ++ pending) rest := by
  induction attributes generalizing pending with
  | nil => rfl
  | cons token attributes ih =>
    have hrest : ∀ kind, Token.marker kind ∉ attributes := by
      intro kind h
      exact ha kind (by simp [h])
    cases token with
    | marker kind => exact absurd (by simp) (ha kind)
    | _ =>
      simp only [List.cons_append, read, List.reverse_cons, List.append_assoc, List.nil_append]
      exact ih _ hrest

theorem close_rule {forest : Forest} {rule : Rule} (h : rule.arity ≤ forest.roots.length) :
    forest.close rule.kind (rule.attributes ++ [.result rule.value]) = .ok (forest.add rule) := by
  have hr := rule.read_attributes []
  have hl : ¬ (forest.roots.take rule.arity).length < rule.arity := by simp; omega
  simp [close, hr, add, bind, Except.bind, pure, Except.pure]
  omega

theorem read_rule {forest : Forest} {rule : Rule} (h : rule.arity ≤ forest.roots.length) :
    forest.read [] rule.tokens = .ok (forest.add rule) := by
  have ha : ∀ kind, Token.marker kind ∉ rule.attributes := by
    intro kind
    cases rule <;> simp [Rule.attributes]
  rw [Rule.tokens, read_attributes [] _ ha]
  simp [read, close_rule h]

theorem length_values (forest : Forest) : forest.values.length = forest.roots.length := by
  simp [values]

theorem questions_add (forest : Forest) (rule : Rule) :
    (forest.add rule).questions = forest.questions ++ rule.question?.toList := by
  cases h : rule.question? <;> simp [questions, add, h]

end Forest

/-- The tape is being written and its tokens so far are those of the forest. -/
structure Tape.Reads (tape : Tape) (forest : Forest) : Prop where
  enabled : tape.enabled = true
  read : Forest.read ⟨#[], []⟩ [] tape.tokens.toList = .ok forest

namespace Tape.Reads

theorem empty : (Tape.empty true).Reads ⟨#[], []⟩ := ⟨rfl, rfl⟩

theorem emit {tape : Tape} {forest : Forest} {rule : Rule} (h : tape.Reads forest)
    (ha : rule.arity ≤ forest.values.length) : (tape.emit rule).Reads (forest.add rule) := by
  obtain ⟨tokens, enabled⟩ := tape
  obtain rfl : enabled = true := h.enabled
  refine ⟨rfl, ?_⟩
  simp only [Tape.emit, Tape.append, Array.toList_appendList]
  rw [Forest.read_append _ h.read, Forest.read_rule (forest.length_values ▸ ha)]

theorem decode {tape : Tape} {forest : Forest} {root : Nat} (h : tape.Reads forest)
    (hr : forest.roots = [root]) : tape.decode = .ok ⟨some root, forest.nodes⟩ := by
  obtain ⟨nodes, roots⟩ := forest
  obtain rfl : roots = [root] := hr
  simp [Tape.decode, h.read]

end Tape.Reads

end Inquiry
