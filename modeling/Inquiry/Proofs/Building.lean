import Mathlib.Data.List.Nodup
import Inquiry.Builder
import Inquiry.Proofs.Distinct
set_option autoImplicit false

namespace Inquiry

namespace Builder

/-- The builders that calls on a new one lead to, with the questions that were given out on the
way. A call that is turned down leaves the builder as it is. -/
inductive Made : Builder → List Question → Prop where
  | empty : Made .empty []
  | slot {b : Builder} {given : List Question} (name : String) (h : Made b given) :
      Made (b.slot name).2 given
  | input {b b' : Builder} {given : List Question} {text prompt : String} {kind : Kind} {e : Expr}
      (h : Made b given) (hi : b.input text kind prompt = .ok (e, b')) :
      Made b' (e.mentions ++ given)
  | refused {b : Builder} {given : List Question} {text prompt : String} {kind : Kind}
      {e : BuildError} (h : Made b given) (hi : b.input text kind prompt = .error e) :
      Made b given

theorem of_input_eq_ok {b b' : Builder} {text prompt : String} {kind : Kind} {e : Expr}
    (h : b.input text kind prompt = .ok (e, b')) : ∃ question, e = .input question ∧
      question.text = text ∧ question.kind = kind ∧
      (question ∈ b.questions ∧ b'.questions = b.questions ∨
        text ∉ b.questions.map Question.text ∧ b'.questions = question :: b.questions) := by
  unfold input at h
  split at h
  · rename_i known hknown
    split at h
    · rename_i hk
      cases h
      have htext : known.text = text := by simpa using List.find?_some hknown
      exact ⟨known, rfl, htext, hk, .inl ⟨List.mem_of_find?_eq_some hknown, rfl⟩⟩
    · contradiction
  · rename_i hnone
    cases h
    refine ⟨⟨text, kind, prompt⟩, rfl, rfl, rfl, .inr ⟨?_, rfl⟩⟩
    intro hm
    obtain ⟨q, hq, ht⟩ := List.mem_map.mp hm
    exact absurd ht (by simpa using List.find?_eq_none.mp hnone q hq)

/-- A builder knows all that it gave out, each text once. -/
structure Shares (b : Builder) (given : List Question) : Prop where
  known : given ⊆ b.questions
  nodup : (b.questions.map Question.text).Nodup

theorem Made.shares {b : Builder} {given : List Question} (h : Made b given) :
    b.Shares given := by
  induction h with
  | empty => exact ⟨List.nil_subset _, List.nodup_nil⟩
  | slot name _ ih => exact ⟨ih.known, ih.nodup⟩
  | refused _ _ ih => exact ih
  | input _ hi ih =>
    obtain ⟨question, rfl, rfl, _, ⟨hmem, hq⟩ | ⟨hnew, hq⟩⟩ := of_input_eq_ok hi
    · exact ⟨hq ▸ List.cons_subset.mpr ⟨hmem, ih.known⟩, hq ▸ ih.nodup⟩
    · refine ⟨?_, ?_⟩
      · exact hq ▸ List.cons_subset_cons question ih.known
      · exact hq ▸ List.nodup_cons.mpr ⟨hnew, ih.nodup⟩

theorem Shares.eq_of_text {b : Builder} {given : List Question} (h : b.Shares given)
    {q q' : Question} (hq : q ∈ given) (hq' : q' ∈ given) (ht : q.text = q'.text) : q = q' :=
  List.inj_on_of_nodup_map h.nodup (h.known hq) (h.known hq') ht

end Builder

/-- Wherever the program mentions a question, it says the same of it. -/
def Program.Consistent (p : Program) : Prop :=
  ∀ q ∈ Stmt.mentionsAll p.body, ∀ q' ∈ Stmt.mentionsAll p.body, q.text = q'.text → q = q'

theorem Builder.Made.consistent {b : Builder} {given : List Question} {program : Program}
    (h : Made b given) (hp : Stmt.mentionsAll program.body ⊆ given) : program.Consistent :=
  fun _ hq _ hq' ht => h.shares.eq_of_text (hp hq) (hp hq') ht

theorem Program.Consistent.question?_eq {p : Program} {q : Question} (h : p.Consistent)
    (hq : q ∈ Stmt.mentionsAll p.body) : p.question? q.text = some q := by
  obtain ⟨declared, hd, ht⟩ := List.mem_map.mp (mem_questions.mpr (List.mem_map_of_mem hq))
  cases hf : p.question? q.text with
  | none =>
    have hne := List.find?_eq_none.mp hf declared hd
    simp [ht] at hne
  | some found =>
    obtain ⟨hfound, htext⟩ := mentions_of_question? hf
    rw [h found hfound q hq htext]

end Inquiry
