import Mathlib.Data.List.Basic
import Inquiry.Proofs.Derivation.Decoding
set_option autoImplicit false

namespace Inquiry

def Token.isMarker : Token → Bool
  | .marker _ => true
  | _ => false

namespace Rule

/-- Whether the node carries the derivation of what a name or a field stands for. -/
def derives : Rule → Bool
  | .name _ derived _ | .access _ derived _ => derived
  | _ => false

theorem isMarker_of_mem_attributes {rule : Rule} {token : Token} (hm : token ∈ rule.attributes) :
    token.isMarker = false := by
  cases token with
  | marker kind => cases rule <;> simp [attributes] at hm
  | _ => rfl

theorem eq_of_attributes {r s : Rule} (hk : r.kind = s.kind)
    (ha : r.attributes ++ [.result r.value] = s.attributes ++ [.result s.value]) : r = s := by
  have hr := r.read_attributes []
  rw [hk, ha, s.read_attributes []] at hr
  exact (Prod.mk.inj (Except.ok.inj hr)).1.symm

theorem span_tokens (rule : Rule) (rest : List Token) :
    (rule.tokens ++ rest).takeWhile (!·.isMarker) = rule.attributes ++ [.result rule.value] ∧
      (rule.tokens ++ rest).dropWhile (!·.isMarker) = .marker rule.kind :: rest := by
  have hmarkers : ∀ token ∈ rule.attributes, (!token.isMarker) = true := by
    intro token hm
    rw [isMarker_of_mem_attributes hm]
    rfl
  rw [tokens, List.append_assoc, List.takeWhile_append_of_pos hmarkers,
    List.dropWhile_append_of_pos hmarkers]
  simp [Token.isMarker]

theorem tokens_append_inj {r s : Rule} {rest rest' : List Token}
    (h : r.tokens ++ rest = s.tokens ++ rest') : r = s ∧ rest = rest' := by
  obtain ⟨htake, hdrop⟩ := r.span_tokens rest
  rw [h, (s.span_tokens rest').1] at htake
  rw [h, (s.span_tokens rest').2] at hdrop
  obtain ⟨hmarker, hrest⟩ := List.cons.inj hdrop
  exact ⟨eq_of_attributes (Token.marker.inj hmarker).symm htake.symm, hrest.symm⟩

theorem tokens_ne_nil (rule : Rule) : rule.tokens ≠ [] := by simp [tokens]

theorem flatMap_tokens_inj {rules others : List Rule}
    (h : rules.flatMap tokens = others.flatMap tokens) : rules = others := by
  induction rules generalizing others with
  | nil =>
    cases others with
    | nil => rfl
    | cons other rest => simp [tokens_ne_nil] at h
  | cons rule rules ih =>
    cases others with
    | nil => simp [tokens_ne_nil] at h
    | cons other others =>
      rw [List.flatMap_cons, List.flatMap_cons] at h
      obtain ⟨rfl, hrest⟩ := tokens_append_inj h
      rw [ih hrest]

end Rule

def Trace.derived (t : Trace) : List Nat :=
  t.nodes.toList.findIdxs fun node => node.rule.derives

namespace Tape

def written (tape : Tape) : Nat := tape.tokens.toList.countP Token.isMarker

theorem countP_tokens (rule : Rule) : rule.tokens.countP Token.isMarker = 1 := by
  have hattributes : rule.attributes.countP Token.isMarker = 0 := by
    rw [List.countP_eq_zero]
    intro token hm
    rw [Rule.isMarker_of_mem_attributes hm]
    nofun
  simp [Rule.tokens, hattributes, Token.isMarker]

theorem written_emit_le (tape : Tape) (rule : Rule) :
    (tape.emit rule).written ≤ tape.written + 1 := by
  obtain ⟨tokens, _ | _⟩ := tape <;> simp [written, emit, append, countP_tokens]

/-- The tape is being written, and these are the nodes on it. -/
structure Lists (tape : Tape) (rules : List Rule) : Prop where
  enabled : tape.enabled = true
  tokens : tape.tokens.toList = rules.flatMap Rule.tokens

namespace Lists

variable {tape : Tape} {rules : List Rule}

theorem empty : (Tape.empty true).Lists [] := ⟨rfl, rfl⟩

theorem emit (h : tape.Lists rules) (rule : Rule) : (tape.emit rule).Lists (rules ++ [rule]) := by
  obtain ⟨tokens, enabled⟩ := tape
  obtain rfl : enabled = true := h.enabled
  refine ⟨rfl, ?_⟩
  have htokens : tokens.toList = rules.flatMap Rule.tokens := h.tokens
  simp [Tape.emit, append, htokens]

theorem written (h : tape.Lists rules) : tape.written = rules.length := by
  rw [Tape.written, h.tokens, List.countP_flatMap]
  simp [Function.comp_def, countP_tokens]

theorem rules_eq {t : Derivation} (h : tape.Lists rules) (ht : tape.tokens.toList = t.tokens) :
    t.trace.nodes.toList.map Node.rule = rules := by
  have hrules : t.rules = rules := Rule.flatMap_tokens_inj (ht.symm.trans h.tokens)
  rw [← hrules]
  exact t.map_rule_layout 0

end Lists

end Tape

theorem Trace.derived_eq (t : Trace) :
    t.derived = (t.nodes.toList.map Node.rule).findIdxs Rule.derives := by
  rw [List.findIdxs_map]
  rfl

end Inquiry
