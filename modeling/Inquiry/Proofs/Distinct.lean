import Inquiry.Expr.Questions
set_option autoImplicit false

namespace Inquiry

theorem mem_map_distinctFrom {α β : Type} [DecidableEq β] (key : α → β) (b : β) (seen : List β)
    (as : List α) :
    b ∈ (distinctFrom key seen as).map key ↔ b ∈ as.map key ∧ b ∉ seen := by
  induction as generalizing seen with
  | nil => simp [distinctFrom]
  | cons a as ih =>
    by_cases ha : key a ∈ seen
    · simp only [distinctFrom, ha, if_true, ih, List.map_cons, List.mem_cons]
      constructor
      · intro h
        exact ⟨.inr h.1, h.2⟩
      · rintro ⟨rfl | hb, hs⟩
        · exact absurd ha hs
        · exact ⟨hb, hs⟩
    · simp only [distinctFrom, ha, if_false, ih, List.map_cons, List.mem_cons]
      by_cases hb : b = key a
      · subst hb
        simp [ha]
      · simp [hb]

theorem distinctFrom_sublist {α β : Type} [DecidableEq β] (key : α → β) (seen : List β)
    (as : List α) : (distinctFrom key seen as).Sublist as := by
  induction as generalizing seen with
  | nil => exact .slnil
  | cons a as ih =>
    unfold distinctFrom
    split
    · exact (ih seen).cons a
    · exact (ih _).cons_cons a

theorem mem_distinctBy {α : Type} [DecidableEq α] (a : α) (as : List α) :
    a ∈ distinctBy id as ↔ a ∈ as := by
  simpa [distinctBy] using mem_map_distinctFrom id a [] as

theorem find?_distinctFrom {α : Type} [DecidableEq α] {p : α → Bool} {seen : List α}
    (hs : ∀ a ∈ seen, p a = false) (as : List α) :
    (distinctFrom id seen as).find? p = as.find? p := by
  induction as generalizing seen with
  | nil => rfl
  | cons a as ih =>
    by_cases ha : a ∈ seen
    · simp only [distinctFrom, id_eq, ha, if_true, List.find?_cons, hs a ha]
      exact ih hs
    · simp only [distinctFrom, id_eq, ha, if_false, List.find?_cons]
      cases hp : p a with
      | true => rfl
      | false =>
        apply ih
        intro b hb
        rcases List.mem_cons.mp hb with rfl | hb
        · exact hp
        · exact hs b hb

theorem find?_distinctBy {α : Type} [DecidableEq α] (p : α → Bool) (as : List α) :
    (distinctBy id as).find? p = as.find? p := find?_distinctFrom (by simp) as

theorem distinctFrom_id {α : Type} [DecidableEq α] (seen as : List α) :
    distinctFrom id seen as = (as.filter fun a => a ∉ seen).eraseDups := by
  induction as generalizing seen with
  | nil => rfl
  | cons a as ih =>
    by_cases ha : a ∈ seen
    · simp [distinctFrom, ha, ih]
    · have hfilter : (as.filter fun b => b ∉ a :: seen) =
          (as.filter fun b => b ∉ seen).filter fun b => !b == a := by
        rw [List.filter_filter]
        refine List.filter_congr fun b _ => ?_
        by_cases hb : b = a <;> simp [hb]
      have hkept : (a :: as).filter (fun b => b ∉ seen) =
          a :: as.filter fun b => b ∉ seen := List.filter_cons_of_pos (by simpa using ha)
      rw [hkept, List.eraseDups_cons, ← hfilter, ← ih]
      simp [distinctFrom, ha]

theorem distinctBy_id {α : Type} [DecidableEq α] (as : List α) :
    distinctBy id as = as.eraseDups := by
  rw [distinctBy, distinctFrom_id, List.filter_eq_self.mpr (by simp)]

/-- A program has all the questions that it mentions, as far as their texts tell. -/
theorem Program.mem_questions {p : Program} {text : String} :
    text ∈ p.questions.map Question.text ↔
      text ∈ (Stmt.mentionsAll p.body).map Question.text := by
  simpa [questions, distinctBy] using mem_map_distinctFrom Question.text text []
    (Stmt.mentionsAll p.body)

theorem Program.mentions_of_question? {p : Program} {text : String} {q : Question}
    (h : p.question? text = some q) : q ∈ Stmt.mentionsAll p.body ∧ q.text = text :=
  ⟨(distinctFrom_sublist _ _ _).mem (List.mem_of_find?_eq_some h), by simpa using List.find?_some h⟩

end Inquiry
